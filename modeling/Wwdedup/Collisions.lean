import Wwdedup.FsRefinement
import Wwdedup.MurmurHash3

/-!
# Blocks with one digest

Nothing but the digest decides whether a block is stored already.

* `stored_block_wins`: a whole block that is written while another content is stored under its
  digest reads back as that other content, whichever file it is written to.
* `digest_hides`: with MurmurHash3 this happens to every content of every block of 32 bytes or
  more: some other content cannot be stored beside it.
* `small_blocks_runs`: to blocks of at most 16 bytes it never happens, so that runs need no hash
  without collisions.
-/

namespace Wwdedup

open GuardedRun

variable {bits : ℕ} {H : Type} [DecidableEq H]

/-! ### A write of one whole block -/

/-- A whole block is one chunk. -/
theorem chunks_whole (bits m : ℕ) : chunks bits (blockSize bits) (m * blockSize bits) =
    [⟨m, 0, blockSize bits, 0⟩] := by
  have hpos := blockSize_pos bits
  have hstart : (m * blockSize bits) >>> bits = m := by
    rw [Nat.shiftRight_eq_div_pow, ← blockSize_eq, Nat.mul_div_cancel m hpos]
  have hback : m <<< bits = m * blockSize bits := by rw [Nat.shiftLeft_eq, blockSize_eq]
  have hlater : ∀ fuel, laterChunks bits (blockSize bits) fuel (blockSize bits) m = [] := by
    intro fuel
    cases fuel with
    | zero => rfl
    | succ fuel => exact if_neg (Nat.lt_irrefl _)
  unfold chunks
  dsimp only
  rw [hstart, hback, Nat.sub_self, Nat.sub_zero, Nat.min_self]
  exact congrArg (List.cons _) (hlater _)

/-- It leaves nothing of the old content. -/
theorem data_whole (x old : Block bits) (m : ℕ) :
    (⟨m, 0, blockSize bits, 0⟩ : Chunk).data (List.ofFn x) old = x := by
  funext i
  have hin : 0 ≤ i.val ∧ i.val < 0 + blockSize bits := by
    have hi := i.isLt
    omega
  show (if 0 ≤ i.val ∧ i.val < 0 + blockSize bits then
    (List.ofFn x).getD (0 + (i.val - 0)) 0 else old i) = x i
  rw [if_pos hin, Nat.sub_zero, Nat.zero_add, List.getD_eq_getElem?_getD, List.getElem?_ofFn,
    dif_pos i.isLt]
  rfl

variable {cfg : Config bits H} {s s' : Store bits H} {fi fi' : FileInfo H}

/-- A block whose hash is found takes the content that is stored. -/
theorem Wrote.blockOf_found {ino : ℕ} {data : Block bits} {hash : H} {fb : BlockInfo H}
    {r : Store bits H × BlockInfo H} (h : Wrote s ino data hash fb r) (hu : s.db.HashUnique)
    (hu' : r.1.db.HashUnique) (hb : Replaces.Backed s.db fb (s.lock fb.storageBlock)) {k : ℕ}
    {y : Block bits} (hk : s.db.rowHash k = some hash) (hy : s.content k = some y) :
    r.1.blockOf ino fb.fileBlockNum = y := by
  have hfile := h.fileHash_eq ino fb.fileBlockNum
  rw [if_pos rfl] at hfile
  have hrow := h.rowHash_eq hb k
  rw [if_pos (h.num_of_rowHash hu hk)] at hrow
  have hsel : (s.db.selectBlockHash hash).isNone = false := by
    cases hsel : s.db.selectBlockHash hash with
    | none => exact absurd hk (Db.selectBlockHash_none hsel k)
    | some row => rfl
  refine Store.blockOf_eq hu' hfile hrow ?_
  rw [h.content_eq, if_neg (by simp [hsel]), hy]

/-- The same for a round of a write that fills the whole block. -/
theorem roundStep_write_found (hco : Coherent cfg s) (hfi : fi.Ok s.db) {buf : List UInt8}
    {c : Chunk} {out : List UInt8} {x y : Block bits} {k : ℕ} (hfull : ∀ old, c.data buf old = x)
    (hk : s.db.rowHash k = some (cfg.murmur x)) (hy : s.content k = some y)
    (hr : roundStep cfg (s, fi) (.write buf c) = .ok ((s', fi'), out)) :
    s'.blockOf fi.stIno c.block = y := by
  have hco' := (roundStep_coherent hco hfi hr).1
  cases roundStep_stepped hr with
  | write _ _ old touched shown ran wrote =>
    have hloc := getLockedFileBlock_locates cfg s fi c.block
    obtain ⟨hl, hnum, hfb⟩ := hco.locate hfi c.block
    have hdb := touched.same.db.trans hloc.db_eq
    have hco₁ := hl.touches touched
    rw [hfull old] at wrote
    have hfound := wrote.blockOf_found hco₁.unique hco'.unique (hco₁.backed (hdb ▸ hfb))
      (hdb.symm ▸ hk) (touched.same.content k ▸ (hloc.content_eq k).symm ▸ hy)
    rwa [hnum] at hfound

/-- **The stored content wins.**  A whole block is written to any place of any file while another
content is stored under its hash: a handle that is opened now reads the other content. -/
theorem stored_block_wins (cfg : Config bits H) (hdb : cfg.dbBlockSize ≤ blockSize bits)
    {fs fs' : Fs bits H} (hreach : Reachable (Fs.step cfg) (Fs.init bits H) fs) {fh m k : ℕ}
    {fi : FileInfo H} {out : Out} {x y : Block bits} (hfi : fs.handles fh = some fi)
    (hk : fs.store.db.rowHash k = some (cfg.murmur x)) (hy : fs.store.content k = some y)
    (hstep : fs.step cfg (.write fh (List.ofFn x) (m * blockSize bits)) = .ok (fs', out))
    {path : Path} (hpath : (fs'.store.db.getByPath path).stIno = fi.stIno) :
    ∃ f : ℕ → UInt8, blockView bits f m = y ∧ freshRead cfg fs'.store path =
      .ok (window f 0 (fs'.store.db.getByPath path).stSize) := by
  have hco := Fs.reachable_coherent hreach
  have hco' := Fs.reachable_coherent (hreach.next hstep)
  obtain ⟨fi₁, fi', s', os, hfi₁, hr, hrun, rfl, -⟩ := Fs.step_write_ok hstep
  cases hfi.symm.trans hfi₁
  have hok := hco.acts_ok hr
  have hlen : (List.ofFn x).length = blockSize bits := List.length_ofFn
  unfold writeRounds at hrun
  rw [hlen, chunks_whole, List.map_singleton] at hrun
  have hblock : s'.blockOf fi.stIno m = y := by
    obtain ⟨⟨s₁, fi₁⟩, os₁, os₂, hresize, hwrite, -⟩ := run_append_ok.mp hrun
    -- the size is set first, which touches neither the blocks nor their hashes
    have hkept : Coherent cfg s₁ ∧ fi₁.Ok s₁.db ∧ fi₁.stIno = fi.stIno ∧
        s₁.db.rowHash k = fs.store.db.rowHash k ∧ s₁.content k = fs.store.content k := by
      split at hresize
      · obtain ⟨⟨s₂, fi₂⟩, o, os', hstep', hnil, -⟩ := run_cons_ok.mp hresize
        cases hnil
        obtain ⟨hco₁, hok₁, -⟩ := roundStep_coherent hco.1 hok hstep'
        cases hstep'
        refine ⟨hco₁, hok₁, ?_, ?_, rfl⟩
        · exact stIno_ftruncate ..
        · exact rowHash_ftruncate ..
      · cases hresize
        exact ⟨hco.1, hok, rfl, rfl, rfl⟩
    obtain ⟨hco₁, hok₁, hino, hk₁, hy₁⟩ := hkept
    obtain ⟨⟨s₂, fi₂⟩, o, os', hround, hnil, -⟩ := run_cons_ok.mp hwrite
    cases hnil
    rw [← hino]
    exact roundStep_write_found hco₁ hok₁ (fun old => data_whole x old m) (hk₁.trans hk)
      (hy₁.trans hy) hround
  refine ⟨((fs.setStore s').setHandle fh fi').store.byteOf fi.stIno, ?_, ?_⟩
  · rw [Store.blockView_byteOf]
    exact hblock
  · rw [freshRead_window hco'.1 hdb, hpath]

/-! ### MurmurHash3 -/

/-- The store as the program sets it up. -/
def murmurConfig (bits : ℕ) (dbBlockSize : ℤ) : Config bits Digest := ⟨dbBlockSize, digest⟩

/-- **Every content of every block of 32 bytes or more hides another one**: as long as it is
stored, the other one reads back as it, wherever that is written. -/
theorem digest_hides (hbits : 5 ≤ bits) {dbBlockSize : ℤ} (hdb : dbBlockSize ≤ blockSize bits)
    (x : Block bits) : ∃ y : Block bits, y ≠ x ∧
      ∀ (fs fs' : Fs bits Digest) fh fi k m out path,
        Reachable (Fs.step (murmurConfig bits dbBlockSize)) (Fs.init bits Digest) fs →
        fs.handles fh = some fi → (fs.store.db.rowHash k).isSome → fs.store.content k = some x →
        fs.step (murmurConfig bits dbBlockSize) (.write fh (List.ofFn y) (m * blockSize bits)) =
          .ok (fs', out) →
        (fs'.store.db.getByPath path).stIno = fi.stIno →
        ∃ f : ℕ → UInt8, blockView bits f m = x ∧
          freshRead (murmurConfig bits dbBlockSize) fs'.store path =
            .ok (window f 0 (fs'.store.db.getByPath path).stSize) := by
  obtain ⟨y, hne, hsame⟩ := digest_collides hbits x
  refine ⟨y, hne, fun fs fs' fh fi k m out path hreach hfi hrow hx hstep hpath => ?_⟩
  obtain ⟨g, hg⟩ := Option.isSome_iff_exists.mp hrow
  -- the row of a block has the digest of its content
  obtain ⟨x', hx', hhash⟩ := (Fs.reachable_coherent hreach).1.row k g (fun hf => hf) hg
  rw [hx] at hx'
  cases hx'
  have hk : fs.store.db.rowHash k = some (digest y) := by
    rw [hg, hsame]
    exact congrArg some hhash.symm
  exact stored_block_wins (murmurConfig bits dbBlockSize) hdb hreach hfi hk hx hstep hpath

/-- A file with one block of zeros. -/
def zeroBytes : List Op := [.create ['/', 'f'] sIfreg, .write 0 (List.ofFn (zeroBlock 5)) 0]

/-- Its block hides another content from every file. -/
theorem digest_hides_zeroBytes : ∃ y : Block 5, y ≠ zeroBlock 5 ∧ ∀ fs' out path,
    (Fs.after (murmurConfig 5 32) zeroBytes).step (murmurConfig 5 32)
        (.write 0 (List.ofFn y) (1 * blockSize 5)) = .ok (fs', out) →
      (fs'.store.db.getByPath path).stIno = 2 →
      ∃ f : ℕ → UInt8, blockView 5 f 1 = zeroBlock 5 ∧
        freshRead (murmurConfig 5 32) fs'.store path =
          .ok (window f 0 (fs'.store.db.getByPath path).stSize) := by
  obtain ⟨y, hne, hall⟩ := digest_hides (show 5 ≤ 5 by decide)
    (show (32 : ℤ) ≤ blockSize 5 by decide) (zeroBlock 5)
  have hrow : ((Fs.after (murmurConfig 5 32) zeroBytes).store.db.rowHash 1).isSome := rfl
  have hzeros : (Fs.after (murmurConfig 5 32) zeroBytes).store.content 1 = some (zeroBlock 5) :=
    congrArg some (data_whole (zeroBlock 5) (zeroBlock 5) 0)
  exact ⟨y, hne, fun fs' out path hstep hpath =>
    hall _ fs' 0 _ 1 1 out path (Fs.after_reachable _ zeroBytes) rfl hrow hzeros hstep hpath⟩

/-- **With blocks of at most 16 bytes no hash needs to be trusted**: runs that conform in all other
respects are runs of the file system without blocks, whatever they write.  (Blocks of less than 16
bytes are not mounted again.) -/
theorem small_blocks_runs (hbits : bits ≤ 4) {dbBlockSize : ℤ}
    (hdbSize : dbBlockSize ≤ blockSize bits) (ops : List Op)
    (hok : Meets (Fs.step (murmurConfig bits dbBlockSize)) (fun fs op =>
      fs.Proper op ∧ fs.ReplacesEmpty op ∧ fs.Current op ∧
      fs.RoundsMeet (murmurConfig bits dbBlockSize) (fun p r =>
        r.Unshared (murmurConfig bits dbBlockSize) p ∧
        r.Sees (murmurConfig bits dbBlockSize) p) op ∧
      fs.Served op ∧ fs.Named op) (Fs.init bits Digest) ops) :
    ∃ fs outs, run (Fs.step (murmurConfig bits dbBlockSize)) (Fs.init bits Digest) ops =
        .ok (fs, outs) ∧
      SpecRuns (FileSystem.Step (blockCut bits)) .init ops outs fs.view := by
  generalize hcfg : murmurConfig bits dbBlockSize = cfg at hok ⊢
  have hinj : Function.Injective cfg.murmur := hcfg ▸ digest_injective hbits
  have hdb : cfg.dbBlockSize ≤ blockSize bits := by
    rw [← hcfg]
    exact hdbSize
  have hstep : ∀ (fs : Fs bits Digest) op, fs.Sound cfg → (fs.Proper op ∧ fs.ReplacesEmpty op ∧
      fs.Current op ∧ fs.RoundsMeet cfg (fun p r => r.Unshared cfg p ∧ r.Sees cfg p) op ∧
      fs.Served op ∧ fs.Named op) → ∃ fs' out, fs.step cfg op = .ok (fs', out) ∧ fs'.Sound cfg ∧
        FileSystem.Step (blockCut bits) fs.view op fs'.view out := by
    intro fs op h hc
    obtain ⟨hproper, hempty, hcurrent, hrounds, hserved, hnamed⟩ := hc
    have hgen := h.tidy.coherent.genuine hinj op
    exact h.step_conforms hdb
      { orderly := ⟨hproper, hempty, hcurrent, fun fi rs hr =>
          ((hrounds fi rs hr).mono fun _ _ hg => hg.1).and (hgen fi rs hr)⟩
        sees := fun fi rs hr => (hrounds fi rs hr).mono fun _ _ hg => hg.2
        served := hserved
        named := hnamed }
  obtain ⟨fs, outs, hrun, -, hspec⟩ := run_simulates hstep (Fs.init_sound cfg) hok
  rw [Fs.init_view] at hspec
  exact ⟨fs, outs, hrun, hspec⟩

/-- A directory, a file in it, and a block of 16 bytes. -/
theorem small_blocks_runs_one :
    ∃ fs outs, run (Fs.step (murmurConfig 4 (blockSize 4))) (Fs.init 4 Digest)
        [.mkdir ['/', 'd'] 0o755, .create ['/', 'd', '/', 'f'] sIfreg,
          .write 0 (List.replicate 16 7) 0] = .ok (fs, outs) ∧
      SpecRuns (FileSystem.Step (blockCut 4)) .init
        [.mkdir ['/', 'd'] 0o755, .create ['/', 'd', '/', 'f'] sIfreg,
          .write 0 (List.replicate 16 7) 0] outs fs.view := by
  have hreg : sIsdir sIfreg = false := by decide
  have hnone : ∀ {fs : Fs 4 Digest} {op : Op}
      {ok : Store 4 Digest × FileInfo Digest → Round → Prop},
      fs.rounds op = none → fs.RoundsMeet (murmurConfig 4 (blockSize 4)) ok op := by
    intro fs op ok hr fi rs hr'
    rw [hr] at hr'
    cases hr'
  refine small_blocks_runs (by decide) (le_refl _) _
    (.cons ⟨trivial, trivial, fun _ _ hr => (by cases hr),
    hnone rfl, trivial, ⟨[['d']], by decide, rfl⟩⟩ rfl (.cons ⟨hreg, trivial,
      fun _ _ hr => (by cases hr), hnone rfl, trivial, ⟨[['d'], ['f']], by decide, rfl⟩⟩ rfl ?_))
  have hbuf : List.replicate 16 (7 : UInt8) ≠ [] := by decide
  refine ⟨⟨hbuf, trivial, fun fi rs hr => ?_, fun fi rs hr => ?_, ⟨_, rfl⟩, trivial⟩,
    fun _ _ _ => trivial⟩
  · cases hr
    exact .getByPath (by decide)
  · cases hr
    have hwhole : ¬(16 < blockSize 4) := by decide
    exact .cons ⟨trivial, trivial⟩ rfl (.cons ⟨fun x _ b hb => (by cases hb),
      fun hlt => absurd hlt hwhole⟩ rfl trivial)

end Wwdedup
