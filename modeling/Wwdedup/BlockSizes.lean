import Wwdedup.Knows

/-!
# Two block sizes

`DedupFS` takes the block size of its `BlocksCache` from the options that `private_data` of the
FUSE context points to.  `DataBase` takes the context itself for the options, so that its
`block_size` is the `int` at offset 4 of `struct fuse_context`, half of the pointer in front of it.
`loadFileBlock` uses it to tell that a block lies behind the end of the file without a look into
`file_blocks`.

* `rounds_inside` bounds the blocks that the cache asks for by the block size of the cache.
* `agrees_iff`: the two layers agree exactly when the size of the database layer is not larger.
-/

namespace Wwdedup

open GuardedRun

variable {bits : ℕ} {H : Type} [DecidableEq H]

/-! ### The context -/

/-- `struct dedupfs_options`, as `main` fills it. -/
structure DedupfsOptions where
  blockSizeBits : ℕ
  blockSize : ℤ
  sized : blockSize = Wwdedup.blockSize blockSizeBits

/-- `opts` of `main` for a number of bits. -/
def DedupfsOptions.ofBits (bits : ℕ) : DedupfsOptions := ⟨bits, Wwdedup.blockSize bits, rfl⟩

/-- `struct fuse_context`: the pointer `fuse`, which comes first, and what `private_data` points
to. -/
structure FuseContext where
  fuse : BitVec 64
  privateData : DedupfsOptions

namespace FuseContext

abbrev blockBits (ctx : FuseContext) : ℕ := ctx.privateData.blockSizeBits

/-- The `int` at an offset in front of the end of the pointer, the lowest byte first. -/
def intAt (ctx : FuseContext) (offset : ℕ) : ℤ := (ctx.fuse.extractLsb' (8 * offset) 32).toInt

/-- `((dedupfs_options*)fuse_get_context())->block_size`, which has one `int` in front of it. -/
def dbBlockSize (ctx : FuseContext) : ℤ := ctx.intAt 4

/-- What the constructors of `DataBase` and `DedupFS` make of the context. -/
def config (ctx : FuseContext) (murmur : Block ctx.blockBits → H) : Config ctx.blockBits H where
  dbBlockSize := ctx.dbBlockSize
  murmur := murmur

end FuseContext

/-! ### The shortcut -/

/-- After some rounds of the request, in the store `s`, the cache calls `loadFileBlock` for the
block `n` of `fi`.  Reads that start behind the end, which the kernel answers itself, are left
out. -/
def Fs.Asks (cfg : Config bits H) (fs : Fs bits H) (op : Op) (s : Store bits H) (fi : FileInfo H)
    (n : ℕ) : Prop :=
  fs.StartsInside op ∧ ∃ fi₀ before r later os, fs.rounds op = some (fi₀, before ++ r :: later) ∧
    run (roundStep cfg) (fs.store, fi₀) before = .ok ((s, fi), os) ∧
    r.block = some n ∧ fi.blocks n = none

/-- Wherever a request of the only handle of its file makes the cache ask, `loadFileBlock` takes
its first exit only for blocks without a row. -/
def Config.Agrees (cfg : Config bits H) : Prop :=
  ∀ ops fs outs, Meets (Fs.step cfg) Fs.Alone (Fs.init bits H) ops →
    run (Fs.step cfg) (Fs.init bits H) ops = .ok (fs, outs) →
    ∀ op s fi n, fs.Alone op → fs.Asks cfg op s fi n → cfg.Skips fi n →
      s.db.fileHash fi.stIno n = none

/-- The cache asks for blocks inside the size only. -/
theorem Fs.Asks.inside {cfg : Config bits H} {fs : Fs bits H} {op : Op} {s : Store bits H}
    {fi : FileInfo H} {n : ℕ} (h : fs.Asks cfg op s fi n) : n * blockSize bits ≤ fi.stSize := by
  obtain ⟨hstart, fi₀, before, r, later, os, hr, hrun, hblock, -⟩ := h
  have hmeets : Meets (roundStep cfg) (fun p r => r.Inside p) (fs.store, fi₀) _ :=
    rounds_inside hstart hr
  exact (hmeets.append hrun).1 n hblock

/-- With a block size that is not larger than that of the cache the exit is not taken. -/
theorem agrees_of_le {cfg : Config bits H} (hdb : cfg.dbBlockSize ≤ blockSize bits) :
    cfg.Agrees := by
  intro ops fs outs _ _ op s fi n _ hasks hskips
  exact absurd hskips (not_past hdb hasks.inside)

/-! ### A row behind the shortcut -/

/-- One byte at the beginning of the block 2. -/
theorem chunks_third (bits : ℕ) : chunks bits 1 (2 * blockSize bits) = [⟨2, 0, 1, 0⟩] := by
  have hpos := blockSize_pos bits
  have hstart : (2 * blockSize bits) >>> bits = 2 := by
    rw [Nat.shiftRight_eq_div_pow, ← blockSize_eq]
    exact Nat.mul_div_left 2 hpos
  have hback : 2 <<< bits = 2 * blockSize bits := by rw [Nat.shiftLeft_eq, blockSize_eq]
  have hlen : min 1 (blockSize bits - 0) = 1 := by omega
  unfold chunks
  rw [hstart]
  dsimp only
  rw [hback, Nat.sub_self, hlen]
  rfl

/-- The new file of the run, when it has the given size. -/
def thirdFile (H : Type) (size : ℕ) : FileInfo H :=
  { name := ['/', 'f'], depth := 1, stIno := 2, stSize := size, stMode := sIfreg,
    blocks := fun _ => none }

/-- A new store with the new file, open as the handle 0. -/
def created (bits : ℕ) (H : Type) [DecidableEq H] : Fs bits H :=
  ((Fs.init bits H).setDb
    { (Fs.init bits H).store.db with
      files := (Fs.init bits H).store.db.files.insert
        (fun n => ⟨n, ['/', 'f'], 1, 0, sIfreg⟩) (fun _ => rfl) }).addHandle (thirdFile H 0)

theorem step_created (cfg : Config bits H) :
    (Fs.init bits H).step cfg (.create ['/', 'f'] sIfreg) = .ok (created bits H, .opened 0) := by
  have hroot : (Fs.init bits H).store.db.getByPath (branchPath ['/', 'f']) =
      { name := ['/'], depth := 0, stIno := 1, stSize := 0, stMode := sIfdir ||| 0o755,
        blocks := fun _ => none } := rfl
  have hnew : ((Fs.init bits H).store.db.getByPath ['/', 'f']).stIno = 0 := rfl
  have hdir : sIsdir (sIfdir ||| 0o755) = true := by decide
  have hne : (['/', 'f'] : Path) ≠ ['/'] := by decide
  have hcreate : (Fs.init bits H).store.db.create ['/', 'f'] sIfreg =
      ({ (Fs.init bits H).store.db with
        files := (Fs.init bits H).store.db.files.insert
          (fun n => ⟨n, ['/', 'f'], 1, 0, sIfreg⟩) (fun _ => rfl) }, 0) := by
    unfold Db.create
    rw [hroot, if_neg (by rintro ⟨-, ⟨⟩⟩), if_neg (by rw [hdir]; simp),
      if_neg (by rw [hnew]; simp), if_neg hne]
    rfl
  unfold Fs.step Fs.create
  dsimp only
  rw [hcreate, if_neg (by show ¬(0 : ℤ) < 0; decide)]
  rfl

/-- The write of a byte at the beginning of the block 2 of the new file makes a row for the
block, and the file has the size for it. -/
theorem write_third (cfg : Config bits H) : ∃ s fi out,
    run (roundStep cfg) ((created bits H).store, thirdFile H 0)
      (writeRounds bits (thirdFile H 0) [0] (2 * blockSize bits)) = .ok ((s, fi), out) ∧
    (∃ g, s.db.fileHash 2 2 = some g) ∧
    s.db.getByPath ['/', 'f'] = thirdFile H (1 + 2 * blockSize bits) := by
  have hpos := blockSize_pos bits
  have hco := Fs.step_coherent (Fs.init_coherent cfg) (step_created cfg)
  have hok : (thirdFile H 0).Ok (created bits H).store.db :=
    hco.2 0 (thirdFile H 0) rfl
  have hrounds : writeRounds bits (thirdFile H 0) [0] (2 * blockSize bits) =
      [.resize (1 + 2 * blockSize bits), .write [0] ⟨2, 0, 1, 0⟩] := by
    unfold writeRounds
    rw [if_pos (by show 1 + 2 * blockSize bits > 0; omega), List.length_singleton, chunks_third]
    rfl
  have hresize : roundStep cfg ((created bits H).store, thirdFile H 0)
      (.resize (1 + 2 * blockSize bits)) = .ok (_, []) := rfl
  obtain ⟨hco₁, hok₁, -⟩ := roundStep_coherent hco.1 hok hresize
  have hfits : (Round.write [0] ⟨2, 0, 1, 0⟩).Fits bits := by
    show 0 + 1 ≤ blockSize bits
    omega
  obtain ⟨s, fi, out, hwrite⟩ := roundStep_isOk hco₁ hok₁ hfits
  refine ⟨s, fi, [[], out], ?_, ?_, ?_⟩
  · rw [hrounds]
    exact run_cons_ok.mpr ⟨_, _, _, hresize, run_cons_ok.mpr ⟨_, _, _, hwrite, rfl, rfl⟩, rfl⟩
  · cases roundStep_stepped hwrite with
    | write _ _ old touched shown ran wrote =>
      have hhash := wrote.fileHash_eq 2 2
      rw [(hco₁.locate hok₁ 2).2.1, stIno_ftruncate] at hhash
      exact ⟨_, hhash.trans (if_pos rfl)⟩
  · obtain ⟨hfiles, -, -⟩ := roundStep_write_fileHash hco₁ hok₁ hwrite
    have hne : (thirdFile H 0).stSize ≠ 1 + 2 * blockSize bits := by
      show 0 ≠ _
      omega
    have hsized : s.db.files =
        ((created bits H).store.db.updateFileSize (1 + 2 * blockSize bits) 2).files := by
      rw [hfiles]
      exact congrArg Db.files (ftruncate_of_ne _ hne)
    unfold Db.getByPath Db.getByPathIn
    rw [hsized]
    rfl

omit [DecidableEq H] in
theorem Fs.alone_of_only {fs : Fs bits H} {op : Op} {fh : ℕ} (hop : op.handle = some fh)
    (honly : ∀ k, k ≠ fh → fs.handles k = none) : fs.Alone op := by
  intro fi rs hr k fj hfj hne
  rw [honly k fun heq => hne (heq ▸ hop)] at hfj
  cases hfj

omit [DecidableEq H] in
theorem Fs.alone_of_rounds {fs : Fs bits H} {op : Op} (h : fs.rounds op = none) : fs.Alone op := by
  intro fi rs hr
  rw [h] at hr
  cases hr

/-- The new file is written at its block 2, closed and opened again. -/
def thirdCalls (bits : ℕ) : List Op :=
  [.create ['/', 'f'] sIfreg, .write 0 [0] (2 * blockSize bits), .release 0,
    .openFile ['/', 'f']]

/-- The file is open as the handle 1, which has not looked for a block. -/
def reopened (s : Store bits H) : Fs bits H where
  store := s
  handles := Function.update (fun _ => none) 1 (some (thirdFile H (1 + 2 * blockSize bits)))
  nextFh := 2

theorem run_thirdCalls (cfg : Config bits H) : ∃ s outs,
    run (Fs.step cfg) (Fs.init bits H) (thirdCalls bits) = .ok (reopened s, outs) ∧
    Meets (Fs.step cfg) Fs.Alone (Fs.init bits H) (thirdCalls bits) ∧
    ∃ g, s.db.fileHash 2 2 = some g := by
  obtain ⟨s, fi, out, hrun, hmapped, hfile⟩ := write_third cfg
  have hwrite : (created bits H).step cfg (.write 0 [0] (2 * blockSize bits)) =
      .ok (((created bits H).setStore s).setHandle 0 fi, .ret 1) := by
    have hhandle : (created bits H).handles 0 = some (thirdFile H 0) := rfl
    simp only [Fs.step, Fs.write, hhandle, writeBuf_run, hrun, Except.map, factSize_eq]
    rfl
  have hrelease : (((created bits H).setStore s).setHandle 0 fi).step cfg (.release 0) =
      .ok (⟨s, fun _ => none, 1⟩, .ret 0) := by
    have hnone : Function.update (Function.update (created bits H).handles 0 (some fi)) 0 none =
        fun _ => none := by
      unfold created Fs.addHandle Fs.setHandle
      rw [Function.update_idem]
      exact (Function.update_idem ..).trans (Function.update_eq_self 0 fun _ => none)
    show Except.ok ((⟨s, Function.update (Function.update (created bits H).handles 0 (some fi)) 0
      none, 1⟩ : Fs bits H), Out.ret 0) = _
    rw [hnone]
  have hopen : (⟨s, fun _ => none, 1⟩ : Fs bits H).step cfg (.openFile ['/', 'f']) =
      .ok (reopened s, .opened 1) := by
    have hreg : sIsreg sIfreg = true := by decide
    unfold Fs.step Fs.openFile
    dsimp only
    rw [hfile, if_neg (by show ¬2 = 0; decide),
      if_neg (by show ¬(!sIsreg sIfreg) = true; rw [hreg]; decide)]
    rfl
  refine ⟨s, [.opened 0, .ret 1, .ret 0, .opened 1], ?_, ?_, hmapped⟩
  · exact run_cons_ok.mpr ⟨_, _, _, step_created cfg, run_cons_ok.mpr ⟨_, _, _, hwrite,
      run_cons_ok.mpr ⟨_, _, _, hrelease, run_cons_ok.mpr ⟨_, _, _, hopen, rfl, rfl⟩, rfl⟩, rfl⟩,
      rfl⟩
  · refine .cons (Fs.alone_of_rounds rfl) (step_created cfg) (.cons ?_ hwrite
      (.cons (Fs.alone_of_rounds rfl) hrelease (.cons (Fs.alone_of_rounds rfl) hopen trivial)))
    exact Fs.alone_of_only rfl fun k hk => Function.update_of_ne hk ..

omit [DecidableEq H] in
theorem reopened_handles (s : Store bits H) {k : ℕ} (hk : k ≠ 1) :
    (reopened s).handles k = none := by
  unfold reopened
  dsimp only
  rw [Function.update_of_ne hk]

/-- A read of the last byte makes the handle look for the block. -/
theorem reopened_asks (cfg : Config bits H) (s : Store bits H) :
    (reopened s).Asks cfg (.read 1 1 (2 * blockSize bits)) s
      (thirdFile H (1 + 2 * blockSize bits)) 2 := by
  refine ⟨fun fi hfi => ?_, thirdFile H (1 + 2 * blockSize bits), [], .read ⟨2, 0, 1, 0⟩, [], [],
    ?_, rfl, rfl, rfl⟩
  · cases hfi
    exact Nat.le_add_left ..
  have hhandle : (reopened s).handles 1 = some (thirdFile H (1 + 2 * blockSize bits)) := rfl
  have hrounds : readRounds bits (thirdFile H (1 + 2 * blockSize bits)) 1 (2 * blockSize bits) =
      [.read ⟨2, 0, 1, 0⟩] := by
    have hsize : ¬1 + 2 * blockSize bits > (thirdFile H (1 + 2 * blockSize bits)).stSize :=
      Nat.lt_irrefl _
    unfold readRounds
    rw [if_neg hsize, chunks_third]
    rfl
  have hle : 2 * blockSize bits ≤ (thirdFile H (1 + 2 * blockSize bits)).stSize :=
    Nat.le_add_left ..
  unfold Fs.rounds
  dsimp only
  rw [hhandle, Option.filter_some, if_pos (by simpa using readStart_of_le hle),
    Option.map_some, hrounds]
  rfl

/-- **A larger block size hides a row**: that of the block 2 is there, and `loadFileBlock` does not
look for it. -/
theorem not_agrees_of_lt {cfg : Config bits H} (hdb : blockSize bits < cfg.dbBlockSize) :
    ¬cfg.Agrees := by
  intro hagrees
  obtain ⟨s, outs, hrun, hmeets, g, hg⟩ := run_thirdCalls cfg
  have halone : (reopened s).Alone (.read 1 1 (2 * blockSize bits)) :=
    Fs.alone_of_only rfl fun k hk => reopened_handles s hk
  have hskips : cfg.Skips (thirdFile H (1 + 2 * blockSize bits)) 2 := by
    show ((2 : ℕ) : ℤ) * cfg.dbBlockSize > ((1 + 2 * blockSize bits : ℕ) : ℤ)
    omega
  have hnone : s.db.fileHash 2 2 = none :=
    hagrees _ _ _ hmeets hrun _ s _ 2 halone (reopened_asks cfg s) hskips
  rw [hg] at hnone
  cases hnone

/-- **When the two layers agree.**  For every FUSE context, `loadFileBlock` leaves out only blocks
without a row, wherever a request of the only handle of a file makes the cache ask for a block,
if and only if the upper half of the pointer `fuse`, taken as an `int`, is not larger than the
block size of the mount. -/
theorem agrees_iff (ctx : FuseContext) (murmur : Block ctx.blockBits → H) :
    (ctx.config murmur).Agrees ↔
      (ctx.fuse.extractLsb' 32 32).toInt ≤ blockSize ctx.blockBits := by
  have hdb : (ctx.config murmur).dbBlockSize = (ctx.fuse.extractLsb' 32 32).toInt := rfl
  rw [← hdb]
  constructor
  · intro hagrees
    by_contra hlt
    exact not_agrees_of_lt (not_le.mp hlt) hagrees
  · exact agrees_of_le

/-- A pointer as the heap of a 64-bit process has them, and blocks of 4096 bytes: the database
layer works with blocks of 32530 bytes. -/
theorem agrees_not_4096 :
    (⟨0x7f1234567890#64, .ofBits 12⟩ : FuseContext).dbBlockSize = 32530 ∧
      ¬((⟨0x7f1234567890#64, .ofBits 12⟩ : FuseContext).config List.ofFn).Agrees := by
  have hsize : (⟨0x7f1234567890#64, .ofBits 12⟩ : FuseContext).dbBlockSize = 32530 := by decide
  refine ⟨hsize, not_agrees_of_lt ?_⟩
  show (blockSize 12 : ℤ) < (⟨0x7f1234567890#64, .ofBits 12⟩ : FuseContext).dbBlockSize
  rw [hsize]
  decide

end Wwdedup
