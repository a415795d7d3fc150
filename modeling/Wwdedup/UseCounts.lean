import Wwdedup.Isolation

/-!
# Use counts are exact

As long as no block leaves the cache, a block write through a handle that knows the block as the
tables do keeps the use counts exact in all cases but two: it writes to a block that the handle
takes for a hole although `file_blocks` has a row for it (then the old hash keeps its count), or it
gives the block the hash that it already has (then the count in the table is overwritten with the
cached count less one).  `Round.Precise` leaves these two out, and what is done through a
`block_info` that another `file_info` has left behind.

A handle that is not interfered with knows what the tables know: each of its `block_info`s has no
hash yet, or the hash and the storage block that the tables have (`Synced`).
-/

namespace Wwdedup

open GuardedRun

variable {bits : ℕ} {H : Type} [DecidableEq H]

/-! ### What the handle knows -/

/-- Each `block_info` of the handle has no hash and no storage block, or the hash of the tables
and the number of its row. -/
def Synced (s : Store bits H) (fi : FileInfo H) : Prop :=
  ∀ n item, fi.blocks n = some item →
    (item.hash = .null ∧ item.empty = true ∧ item.storageBlock = none) ∨
      ∃ g, item.hash = .digest g ∧ s.db.fileHash fi.stIno n = some g ∧
        s.db.rowHash item.storageBlockNum = some g

/-- The `block_info` has no hash and no storage block, or the hash of the tables for the block
`n` and the number of its row. -/
def InStep (s : Store bits H) (ino n : ℕ) (item : BlockInfo H) : Prop :=
  (item.hash = .null ∧ item.empty = true ∧ item.storageBlock = none) ∨
    ∃ g, item.hash = .digest g ∧ s.db.fileHash ino n = some g ∧
      s.db.rowHash item.storageBlockNum = some g

/-- The other file blocks keep their hashes, and these keep their rows. -/
def Db.KeptBut (db db' : Db H) (ino n : ℕ) : Prop :=
  ∀ f o g k, (f, o) ≠ (ino, n) → db.fileHash f o = some g → db.rowHash k = some g →
    db'.fileHash f o = some g ∧ db'.rowHash k = some g

omit [DecidableEq H] in
theorem Db.KeptBut.refl (db : Db H) (ino n : ℕ) : db.KeptBut db ino n :=
  fun _ _ _ _ _ hf hk => ⟨hf, hk⟩

theorem Replaces.keptBut {s : Store bits H} {ino : ℕ} {hash : H} {fb : BlockInfo H}
    {q : Replaced bits H} (h : Replaces s.db ino fb (s.lock fb.storageBlock) hash q)
    (hb : Replaces.Backed s.db fb (s.lock fb.storageBlock)) (hin : InPlaceUnshared s ino hash fb) :
    s.db.KeptBut q.db ino fb.fileBlockNum := fun f o g k hne hf hk =>
  ⟨by rw [h.fileHash_eq, if_neg hne, hf], h.rowHash_kept hb hin hne hf hk⟩

theorem Db.keptBut_released (db : Db H) (ino n : ℕ) (g : Option H) :
    db.KeptBut (db.released ino n g) ino n := by
  intro f o g' k hne hf hk
  rw [fileHash_released, rowHash_released, if_neg hne]
  exact ⟨hf, hk⟩

/-- Every row of `block_hashes` is cached. -/
def AllCached (s : Store bits H) : Prop := ∀ k, (s.db.rowHash k).isSome → (s.cnt k).isSome

/-- A write goes to no lost block, knows its block as the tables do and changes its hash, and a
release gives up the hash and the row that the tables have. -/
def Round.Precise (cfg : Config bits H) (p : Store bits H × FileInfo H) : Round → Prop
  | .write buf c => ¬Lost cfg p.1 p.2 c.block ∧ Current p.1 p.2 c.block ∧
      ∀ x, NewContent cfg p.1 p.2 buf c x → p.1.db.fileHash p.2.stIno c.block ≠ some (cfg.murmur x)
  | .release n => Accurate p.1 p.2 n
  | _ => True

/-- A `block_info` that is not empty has the number of a storage block. -/
def FileInfo.Numbered (fi : FileInfo H) : Prop :=
  ∀ n item, fi.blocks n = some item → item.empty = false → item.storageBlockNum ≠ 0

section knows

variable {cfg : Config bits H} {s s' : Store bits H} {fi fj : FileInfo H} {n : ℕ}

omit [DecidableEq H] in
theorem Synced.accurate (h : Synced s fi) (n : ℕ) : Accurate s fi n := by
  intro item hitem
  rcases h n item hitem with ⟨hnull, -⟩ | ⟨g, hg, hfile, hrow⟩
  · exact .inl hnull
  · exact .inr ⟨g, hg, hfile, hrow⟩

omit [DecidableEq H] in
/-- What leaves no cache is not loaded again. -/
theorem FileInfo.Numbered.stillCached (h : fi.Numbered) (hall : AllCached s) (hfi : fi.Ok s.db)
    (n : ℕ) : StillCached s fi n := fun item hitem hfilled _ =>
  hall _ ((hfi n item hitem).2.known (h n item hitem hfilled))

/-- A precise round is up to date. -/
theorem FileInfo.Numbered.upToDate (h : fi.Numbered) (hall : AllCached s) (hfi : fi.Ok s.db)
    {r : Round} (hr : r.Precise cfg (s, fi)) : r.UpToDate cfg (s, fi) := by
  cases r with
  | resize newSize => trivial
  | write buf c => exact ⟨hr.2.1, fun _ => hr.2.2⟩
  | read c => exact h.stillCached hall hfi c.block
  | release n => exact hr

section

omit [DecidableEq H]

/-- A handle is in step with the rows that it was in step with. -/
theorem Synced.of_rows {fi' : FileInfo H} (h : Synced s fi)
    (hfile : ∀ f o, s'.db.fileHash f o = s.db.fileHash f o)
    (hrow : ∀ k, s'.db.rowHash k = s.db.rowHash k) (hino : fi'.stIno = fi.stIno)
    (hblocks : fi'.blocks = fi.blocks) : Synced s' fi' := by
  intro n item hitem
  rw [hblocks] at hitem
  rw [hfile, hrow, hino]
  exact h n item hitem

theorem InStep.kept {f m ino n : ℕ} {item : BlockInfo H} (h : InStep s f m item)
    (hkept : s.db.KeptBut s'.db ino n) (hne : (f, m) ≠ (ino, n)) : InStep s' f m item := by
  rcases h with hnull | ⟨g, hg, hfile, hrow⟩
  · exact .inl hnull
  · obtain ⟨hfile', hrow'⟩ := hkept f m g _ hne hfile hrow
    exact .inr ⟨g, hg, hfile', hrow'⟩

/-- A change to a file block leaves a handle in step that remembers no hash for it. -/
theorem Synced.other (h : Synced s fj) {ino n : ℕ} (hkept : s.db.KeptBut s'.db ino n)
    (hno : fj.stIno = ino → ∀ item, fj.blocks n = some item → item.hash = .null) :
    Synced s' fj := by
  intro m item hitem
  by_cases heq : (fj.stIno, m) = (ino, n)
  · obtain ⟨hino, rfl⟩ := Prod.mk.inj heq
    rcases h m item hitem with hnull | ⟨g, hg, -⟩
    · exact .inl hnull
    · rw [hno hino item hitem] at hg
      cases hg
  · exact InStep.kept (h m item hitem) hkept heq

/-- The handle that changes a file block is in step, when its own copy of the block is. -/
theorem Synced.own {fi' : FileInfo H} (h : Synced s fi) (hkept : s.db.KeptBut s'.db fi.stIno n)
    (hino : fi'.stIno = fi.stIno) (hblocks : ∀ m, m ≠ n → fi'.blocks m = fi.blocks m)
    (hself : ∀ item, fi'.blocks n = some item → InStep s' fi.stIno n item) : Synced s' fi' := by
  intro m item hitem
  rw [hino]
  by_cases hm : m = n
  · rw [hm] at hitem ⊢
    exact hself item hitem
  · rw [hblocks m hm] at hitem
    exact InStep.kept (h m item hitem) hkept fun heq => hm (Prod.mk.inj heq).2

/-- The handle's own copy is put back in step with the tables. -/
theorem Synced.setBlock (h : Synced s fi) {fb : BlockInfo H}
    (hfb : InStep s fi.stIno fb.fileBlockNum fb) : Synced s (fi.setBlock fb) := by
  intro n item hitem
  rw [FileInfo.setBlock_blocks, Function.update_apply] at hitem
  split at hitem
  · rename_i hn
    cases hitem
    rw [hn]
    exact hfb
  · exact h n item hitem

end

/-- The `block_info` of the handle for the block `n`, or the one that it reads, is in step. -/
theorem InStep.fileBlock (h : ∀ item, fi.blocks n = some item → InStep s fi.stIno n item)
    (hfound : ∀ f o g, s.db.fileHash f o = some g → ∃ k, s.db.rowHash k = some g) :
    InStep s fi.stIno n (fileBlock cfg s fi n).1 := by
  unfold Wwdedup.fileBlock
  cases hfb : fi.blocks n with
  | some item => exact h item hfb
  | none =>
    dsimp only
    have hl := loadFileBlock_loads cfg s.db fi n
    generalize loadFileBlock cfg s.db fi (.new n) = q at hl ⊢
    cases hl with
    | skipped past => exact .inl ⟨rfl, rfl, rfl⟩
    | absent unmapped => exact .inl ⟨rfl, rfl, rfl⟩
    | dangling g mapped sel =>
      obtain ⟨k, hk⟩ := hfound _ _ g mapped
      exact absurd hk (Db.selectBlockHash_none sel k)
    | found row mapped sel => exact .inr ⟨row.hash, rfl, mapped, Db.rowHash_of_select sel⟩

omit [DecidableEq H] in
/-- Only a `block_info` with a hash gets a new pointer. -/
theorem InStep.located {ino : ℕ} {item : BlockInfo H} {u : ℤ} {l : Located bits H}
    (h : InStep s ino n item) (hloc : Locates s fi item u l) : InStep s ino n l.fblock := by
  cases hloc with
  | kept hk => exact h
  | reloaded filled dead =>
    rcases h with ⟨-, hempty, -⟩ | hsynced
    · rw [filled] at hempty
      cases hempty
    · exact .inr hsynced

/-- Locating a block leaves the handle in step with the tables. -/
theorem Synced.locate (h : Synced s fi) (hfi : fi.Ok s.db)
    (hfound : ∀ f o g, s.db.fileHash f o = some g → ∃ k, s.db.rowHash k = some g) (n : ℕ) :
    Synced s (fi.setBlock (getLockedFileBlock cfg s fi n).fblock) := by
  have hloc := getLockedFileBlock_locates cfg s fi n
  have hnum : (getLockedFileBlock cfg s fi n).fblock.fileBlockNum = n := by
    rw [hloc.fblock_eq.1]
    exact (fileBlock_num_ok n hfi).1
  apply h.setBlock
  rw [hnum]
  exact (InStep.fileBlock (h n) hfound).located hloc

end knows

/-! ### A round -/

section round

variable {cfg : Config bits H} {s s' : Store bits H} {fi fi' fj : FileInfo H}

omit [DecidableEq H] in
theorem AllCached.of_same (h : AllCached s) (hsame : s.Same s') : AllCached s' := by
  intro k hk
  rw [hsame.db] at hk
  rw [hsame.cnt]
  exact h k hk

theorem AllCached.locate (h : AllCached s) (cfg : Config bits H) (fi : FileInfo H) (n : ℕ) :
    AllCached (getLockedFileBlock cfg s fi n).store := by
  intro k hk
  rw [(getLockedFileBlock_locates cfg s fi n).db_eq] at hk
  by_contra hnone
  have hcnt := cnt_locate_none (Option.not_isSome_iff_eq_none.mp hnone)
  have hsome := h k hk
  rw [hcnt] at hsome
  cases hsome

/-- A block write puts a new row into the cache. -/
theorem AllCached.wrote {ino : ℕ} {data : Block bits} {hash : H} {fb : BlockInfo H}
    {r : Store bits H × BlockInfo H} (h : AllCached s) (hw : Wrote s ino data hash fb r)
    (hb : Replaces.Backed s.db fb (s.lock fb.storageBlock)) : AllCached r.1 := by
  intro k hk
  rw [hw.rowHash_eq hb] at hk
  cases hw with
  | hit row sel =>
    have hk' : (s.cnt k).isSome := by
      apply h
      split at hk
      · rename_i hkn
        rw [hkn, Db.rowHash_of_select sel]
        rfl
      · exact hk
    rw [Store.cnt_adjust, Store.cnt_setDb, Store.cnt_releaseLocked]
    split <;> split <;> simpa using hk'
  | inPlace b locked one sel =>
    rw [cnt_place, Store.cnt_setDb, Store.cnt_put]
    split
    · rfl
    · rename_i hne
      rw [if_neg hne] at hk
      split
      · rfl
      · exact h k hk
  | fresh shared sel =>
    rw [cnt_place, Store.cnt_setDb, Store.cnt_releaseLocked]
    split
    · rfl
    · rename_i hne
      rw [if_neg hne] at hk
      have hk' := h k hk
      split
      · simpa using hk'
      · exact hk'

/-- A round takes no row out of the cache and puts every new row there. -/
theorem roundStep_allCached (hall : AllCached s) (hco : Coherent cfg s) (hfi : fi.Ok s.db)
    {r : Round} {out : List UInt8} (hr : roundStep cfg (s, fi) r = .ok ((s', fi'), out)) :
    AllCached s' := by
  cases roundStep_stepped hr with
  | resize newSize =>
    intro k hk
    rw [Store.setDb_db, rowHash_ftruncate] at hk
    exact hall k hk
  | read c x touched shown => exact (hall.locate cfg fi c.block).of_same touched.same
  | @write buf c s₁ old touched shown r ran wrote =>
    obtain ⟨hl, -, hfb⟩ := hco.locate hfi c.block
    have hdb : s₁.db = s.db :=
      touched.same.db.trans (getLockedFileBlock_locates cfg s fi c.block).db_eq
    exact ((hall.locate cfg fi c.block).of_same touched.same).wrote wrote
      ((hl.touches touched).backed (hdb ▸ hfb))
  | release n g hash =>
    intro k hk
    rw [released_db, rowHash_released] at hk
    rw [cnt_released]
    have hk' := hall k hk
    split
    · simpa using hk'
    · exact hk'

/-- A block that is located has a number unless it is empty. -/
theorem FileInfo.Numbered.located (h : fi.Numbered)
    (hfound : ∀ f o g, s.db.fileHash f o = some g → ∃ k, s.db.rowHash k = some g)
    (hzero : s.db.rowHash 0 = none) {n : ℕ}
    (hfilled : (getLockedFileBlock cfg s fi n).fblock.empty = false) :
    (getLockedFileBlock cfg s fi n).fblock.storageBlockNum ≠ 0 := by
  obtain ⟨-, hnum, -, hempty⟩ := (getLockedFileBlock_locates cfg s fi n).fblock_eq
  rw [hempty] at hfilled
  rw [hnum]
  clear hnum hempty
  unfold fileBlock at hfilled ⊢
  cases hfb : fi.blocks n with
  | some item =>
    rw [hfb] at hfilled
    exact h n item hfb hfilled
  | none =>
    rw [hfb] at hfilled
    dsimp only at hfilled ⊢
    have hl := loadFileBlock_loads cfg s.db fi n
    generalize loadFileBlock cfg s.db fi (.new n) = q at hl hfilled ⊢
    cases hl with
    | skipped past => cases hfilled
    | absent unmapped => cases hfilled
    | dangling g mapped sel =>
      obtain ⟨k, hk⟩ := hfound _ _ g mapped
      exact absurd hk (Db.selectBlockHash_none sel k)
    | found row mapped sel =>
      intro hid
      have hrow := Db.rowHash_of_select sel
      rw [show row.id = 0 from hid, hzero] at hrow
      cases hrow

/-- A round leaves the handle so that its blocks have numbers. -/
theorem roundStep_numbered
    (hfound : ∀ f o g, s.db.fileHash f o = some g → ∃ k, s.db.rowHash k = some g)
    (hco : Coherent cfg s) (hfi : fi.Ok s.db) (h : fi.Numbered) {r : Round} {out : List UInt8}
    (hr : roundStep cfg (s, fi) r = .ok ((s', fi'), out)) : fi'.Numbered := by
  intro m item hitem hfilled
  have hco' := (roundStep_coherent hco hfi hr).1
  cases roundStep_stepped hr with
  | resize newSize =>
    rw [blocks_ftruncate] at hitem
    exact h m item hitem hfilled
  | read c x touched shown =>
    rw [FileInfo.setBlock_blocks, Function.update_apply] at hitem
    split at hitem
    · cases hitem
      exact h.located hfound hco.zero hfilled
    · exact h m item hitem hfilled
  | @write buf c s₁ old touched shown r ran wrote =>
    obtain ⟨hl, -, hfb⟩ := hco.locate hfi c.block
    have hdb : s₁.db = s.db :=
      touched.same.db.trans (getLockedFileBlock_locates cfg s fi c.block).db_eq
    have hb := (hl.touches touched).backed (hdb ▸ hfb)
    rw [FileInfo.setBlock_blocks, Function.update_apply] at hitem
    split at hitem
    · cases hitem
      intro hnum
      have hrow := wrote.rowHash_eq hb r.2.storageBlockNum
      rw [if_pos rfl, hnum, hco'.zero] at hrow
      cases hrow
    · rw [FileInfo.setBlock_blocks, Function.update_apply] at hitem
      split at hitem
      · cases hitem
        exact h.located hfound hco.zero hfilled
      · exact h m item hitem hfilled
  | release n g hash =>
    rw [FileInfo.dropBlock_blocks, Function.update_apply] at hitem
    split at hitem
    · cases hitem
    · exact h m item hitem hfilled

/-- **A round leaves the handle in step with the tables**, and every other handle that does not
know the block that the round changes. -/
theorem roundStep_synced
    (hfound : ∀ f o g, s.db.fileHash f o = some g → ∃ k, s.db.rowHash k = some g)
    (hco : Coherent cfg s) (hfi : fi.Ok s.db) (h : Synced s fi) {r : Round} {out : List UInt8}
    (hunshared : r.Unshared cfg (s, fi))
    (hr : roundStep cfg (s, fi) r = .ok ((s', fi'), out)) :
    Synced s' fi' ∧ ∀ fj, Synced s fj →
      (fj.stIno = fi.stIno → ∀ n item, r.changed = some n → fj.blocks n = some item →
        item.hash = .null) → Synced s' fj := by
  cases roundStep_stepped hr with
  | resize newSize =>
    have hfile := fun f o => fileHash_ftruncate s.db fi newSize f o
    have hrow := fun k => rowHash_ftruncate s.db fi newSize k
    exact ⟨h.of_rows hfile hrow (stIno_ftruncate ..) (blocks_ftruncate ..),
      fun fj hfj _ => hfj.of_rows hfile hrow rfl rfl⟩
  | read c x touched shown =>
    have hdb := touched.same.db.trans (getLockedFileBlock_locates cfg s fi c.block).db_eq
    have hkept : ∀ fj, Synced s fj → Synced s' fj := by
      intro fj hfj
      unfold Synced
      rw [hdb]
      exact hfj
    exact ⟨hkept _ (h.locate hfi hfound c.block), fun fj hfj _ => hkept fj hfj⟩
  | @write buf c s₁ old touched shown r ran wrote =>
    obtain ⟨hl, hnum, hfb⟩ := hco.locate hfi c.block
    have hdb : s₁.db = s.db :=
      touched.same.db.trans (getLockedFileBlock_locates cfg s fi c.block).db_eq
    have hb := (hl.touches touched).backed (hdb ▸ hfb)
    have hin := (hunshared _ ⟨old, shown, rfl⟩).congr touched.same
    obtain ⟨_, _, _, hrep, -⟩ := wrote.replaces
    have hkept : s.db.KeptBut r.1.db fi.stIno c.block := hdb ▸ hnum ▸ hrep.keptBut hb hin
    refine ⟨h.own hkept rfl (fun m hm => ?_) fun item hitem => ?_, fun fj hfj hno =>
      hfj.other hkept fun hino item hitem => hno hino c.block item rfl hitem⟩
    · rw [FileInfo.setBlock_blocks, FileInfo.setBlock_blocks, wrote.fblock_eq.1, hnum,
        Function.update_of_ne hm, Function.update_of_ne hm]
    · rw [FileInfo.setBlock_blocks, wrote.fblock_eq.1, hnum, Function.update_self] at hitem
      cases hitem
      refine .inr ⟨_, wrote.fblock_eq.2.1, ?_, ?_⟩
      · rw [wrote.fileHash_eq, hnum]
        exact if_pos rfl
      · rw [wrote.rowHash_eq hb, if_pos rfl]
  | release n g hash =>
    have hkept : s.db.KeptBut
        (s.released fi.stIno n g (heldBlock cfg s.db fi n).storageBlockNum).db fi.stIno n := by
      rw [released_db]
      exact s.db.keptBut_released fi.stIno n g
    refine ⟨h.own hkept rfl (fun m hm => ?_) fun item hitem => ?_, fun fj hfj hno =>
      hfj.other hkept fun hino item hitem => hno hino n item rfl hitem⟩
    · rw [FileInfo.dropBlock_blocks, Function.update_of_ne hm]
    · rw [FileInfo.dropBlock_blocks, Function.update_self] at hitem
      cases hitem

end round

/-! ### Runs -/

/-- The store is coherent, its counts are exact, and all rows are cached. -/
structure Exact (cfg : Config bits H) (s : Store bits H) : Prop where
  coherent : Coherent cfg s
  counted : Counted (· = ·) s
  cached : AllCached s

section runs

variable {cfg : Config bits H}

theorem roundStep_exact {s s' : Store bits H} {fi fi' : FileInfo H} (h : Exact cfg s)
    (hfi : fi.Ok s.db) (hnum : fi.Numbered) {r : Round} {out : List UInt8}
    (hok : r.Precise cfg (s, fi)) (hr : roundStep cfg (s, fi) r = .ok ((s', fi'), out)) :
    Exact cfg s' := by
  refine ⟨(roundStep_coherent h.coherent hfi hr).1, ?_,
    roundStep_allCached h.cached h.coherent hfi hr⟩
  apply roundStep_counted tally_eq h.counted h.coherent hfi (hnum.upToDate h.cached hfi hok) _ hr
  intro buf c hwrite hlost
  rw [hwrite] at hok
  exact absurd hlost hok.1

/-- No other open handle of the file remembers a hash for a block that the request writes or
gives up.  So it is when at most one `FileInfo` works on a file at a time. -/
def Fs.Sole (fs : Fs bits H) (op : Op) : Prop :=
  ∀ fi rs, fs.rounds op = some (fi, rs) → ∀ fh fj, fs.handles fh = some fj →
    op.handle ≠ some fh → fj.stIno = fi.stIno →
      ∀ r ∈ rs, ∀ n item, r.changed = some n → fj.blocks n = some item → item.hash = .null

omit [DecidableEq H] in
/-- With one `FileInfo` for each file that is worked on, there is no other to interfere with. -/
theorem Fs.sole_of_alone {fs : Fs bits H} {op : Op}
    (h : ∀ fi rs, fs.rounds op = some (fi, rs) → ∀ fh fj, fs.handles fh = some fj →
      op.handle ≠ some fh → fj.stIno ≠ fi.stIno) : fs.Sole op := by
  intro fi rs hr fh fj hfj hne hino
  exact absurd hino (h fi rs hr fh fj hfj hne)

/-- A request without rounds meets every guard. -/
theorem Fs.sole_of_rounds_none {cfg : Config bits H} {fs : Fs bits H} {op : Op}
    {ok : Store bits H × FileInfo H → Round → Prop} (h : fs.rounds op = none) :
    fs.Sole op ∧ fs.RoundsMeet cfg ok op := by
  constructor
  all_goals
    intro fi rs hr
    rw [h] at hr
    cases hr

/-- What has to be shown of `J` and `K` so that they hold along runs whose requests are `Sole`: as
for `Keeps`, but a round may break `K` of another handle of the file that remembers a hash for
the block that it changes. -/
structure Fs.KeepsSole (cfg : Config bits H) (ok : Store bits H × FileInfo H → Round → Prop)
    (J : Store bits H → Prop) (K : Store bits H → FileInfo H → Prop) : Prop where
  round : ∀ s fi r s' fi' o, J s → K s fi → ok (s, fi) r →
    roundStep cfg (s, fi) r = .ok ((s', fi'), o) → J s' ∧ K s' fi' ∧ ∀ fj, K s fj →
      (fj.stIno = fi.stIno → ∀ n item, r.changed = some n → fj.blocks n = some item →
        item.hash = .null) → K s' fj
  files : ∀ s files, J s → J (s.setFiles files) ∧ ∀ fj, K s fj → K (s.setFiles files) fj
  fresh : ∀ s path, J s → K s (s.db.getByPath path)
  clock : ∀ s now, J s → J { s with now := now } ∧ ∀ fj, K s fj → K { s with now := now } fj

section sole

variable {ok : Store bits H × FileInfo H → Round → Prop} {J : Store bits H → Prop}
  {K : Store bits H → FileInfo H → Prop}

theorem Fs.KeepsSole.run_rounds (h : Fs.KeepsSole cfg ok J K) {s s' : Store bits H}
    {fi fi' : FileInfo H} {rs : List Round} {os : List (List UInt8)} (hJ : J s) (hK : K s fi)
    (hok : Meets (roundStep cfg) ok (s, fi) rs)
    (hrun : run (roundStep cfg) (s, fi) rs = .ok ((s', fi'), os)) :
    J s' ∧ K s' fi' ∧ ∀ fj, K s fj →
      (fj.stIno = fi.stIno → ∀ r ∈ rs, ∀ n item, r.changed = some n → fj.blocks n = some item →
        item.hash = .null) → K s' fj := by
  induction rs generalizing s fi os with
  | nil =>
    cases hrun
    exact ⟨hJ, hK, fun fj hj _ => hj⟩
  | cons r rs ih =>
    obtain ⟨⟨s₁, fi₁⟩, out, os', hfirst, hrest, -⟩ := run_cons_ok.mp hrun
    obtain ⟨hJ₁, hK₁, hothers⟩ := h.round s fi r s₁ fi₁ out hJ hK hok.1 hfirst
    obtain ⟨hJ', hK', hlater⟩ := ih hJ₁ hK₁ (hok.2 _ _ hfirst) hrest
    have hino := (roundStep_getByPath hfirst).1
    refine ⟨hJ', hK', fun fj hj hno => hlater fj (hothers fj hj ?_) ?_⟩
    · exact fun heq => hno heq r (List.mem_cons_self ..)
    · intro heq r' hr'
      exact hno (heq.trans hino) r' (List.mem_cons_of_mem _ hr')

/-- **What the parts of steps keep, every step keeps that interferes with no other handle.** -/
theorem Fs.KeepsSole.step (h : Fs.KeepsSole cfg ok J K) {fs fs' : Fs bits H} {op : Op} {out : Out}
    (hfs : fs.Holds J K) (hsole : fs.Sole op) (hok : fs.RoundsMeet cfg ok op)
    (hpass : ∀ victims, op = .writerPass victims → J (fs.store.writerPass victims) ∧
      ∀ fj, K fs.store fj → K (fs.store.writerPass victims) fj)
    (hremount : ∀ files, op = .remount →
      J { (fs.store.flush fun _ => true).setFiles files with blocks := .empty })
    (hstep : fs.step cfg op = .ok (fs', out)) : fs'.Holds J K := by
  obtain ⟨hJ, hK⟩ := hfs
  cases step_moves hstep with
  | same => exact ⟨hJ, hK⟩
  | through fh acts opened rounds ran =>
    obtain ⟨hJ', hown, hothers⟩ := h.run_rounds hJ (hK fh _ opened) (hok _ _ rounds) ran
    refine Holds.setHandle hJ' hown fun k fj hne hfj => ?_
    apply hothers fj (hK k fj hfj)
    apply hsole _ _ rounds k fj hfj
    rw [acts]
    exact fun heq => hne (Option.some.inj heq).symm
  | byPath path acts files rounds ran =>
    obtain ⟨hJ', -, hothers⟩ := h.run_rounds hJ (h.fresh _ path hJ) (hok _ _ rounds) ran
    obtain ⟨hJ'', hfiles⟩ := h.files _ files hJ'
    refine ⟨hJ'', fun fh fj hfj => hfiles fj (hothers fj (hK fh fj hfj) ?_)⟩
    apply hsole _ _ rounds fh fj hfj
    rw [acts]
    exact Option.some_ne_none fh ∘ Eq.symm
  | files files =>
    obtain ⟨hJ', hfiles⟩ := h.files _ files hJ
    exact ⟨hJ', fun fh fj hfj => hfiles fj (hK fh fj hfj)⟩
  | opens path files =>
    obtain ⟨hJ', hfiles⟩ := h.files _ files hJ
    have hfs : (fs.setStore (fs.store.setFiles files)).Holds J K :=
      ⟨hJ', fun fh fi hfi => hfiles fi (hK fh fi hfi)⟩
    exact hfs.addHandle (h.fresh _ path hJ')
  | closes fh => exact Holds.close ⟨hJ, hK⟩ fh
  | pass victims asked =>
    obtain ⟨hJ', hothers⟩ := hpass victims asked
    exact ⟨hJ', fun fh fj hfj => hothers fj (hK fh fj hfj)⟩
  | remount files asked => exact ⟨hremount files asked, fun _ _ hfi => by cases hfi⟩
  | clock now =>
    obtain ⟨hJ', hothers⟩ := h.clock _ now hJ
    exact ⟨hJ', fun fh fj hfj => hothers fj (hK fh fj hfj)⟩

end sole

omit [DecidableEq H] in
/-- A `file_info` that was just made is in step with the tables. -/
theorem Synced.getByPath (s : Store bits H) (path : Path) : Synced s (s.db.getByPath path) := by
  intro n item hitem
  rw [Db.getByPath_blocks] at hitem
  cases hitem

/-- The parts of steps keep the counts exact. -/
theorem exact_keeps (cfg : Config bits H) :
    Fs.KeepsCached cfg (Round.Precise cfg) (Exact cfg)
      fun s fi => fi.Ok s.db ∧ fi.Numbered where
  round s fi r s' fi' o hs hfi hok hr := by
    obtain ⟨-, hfi', hgrow⟩ := roundStep_coherent hs.coherent hfi.1 hr
    exact ⟨roundStep_exact hs hfi.1 hfi.2 hok hr,
      ⟨hfi', roundStep_numbered hs.counted.found hs.coherent hfi.1 hfi.2 hr⟩,
      fun fj hj => ⟨hj.1.mono hgrow, hj.2⟩⟩
  files s files hs := by
    obtain ⟨hco, hok⟩ := (coherent_keeps cfg).files s files hs.coherent
    exact ⟨⟨hco, hs.counted.congr (fun _ => rfl) (fun _ => rfl) (fun _ _ => rfl) (fun _ => rfl)
      fun _ _ h => h, hs.cached⟩, fun fj hfj => ⟨hok fj hfj.1, hfj.2⟩⟩
  fresh s path _ := by
    refine ⟨.getByPath _ path, fun n item hitem => ?_⟩
    rw [Db.getByPath_blocks] at hitem
    cases hitem
  clock s now hs := by
    obtain ⟨hco, -⟩ := (coherent_keeps cfg).clock s now hs.coherent
    exact ⟨⟨hco, hs.counted.congr (fun _ => rfl) (fun _ => rfl) (fun _ _ => rfl)
      (fun _ => rfl) fun _ _ h => h, hs.cached⟩, fun _ hfj => hfj⟩

/-- The step takes nothing out of the cache. -/
def Op.KeepsCache : Op → Prop
  | .writerPass _ => False
  | .remount => False
  | _ => True

/-- **A step keeps the counts exact.** -/
theorem Fs.step_exact {fs fs' : Fs bits H} {op : Op} {out : Out}
    (h : fs.Holds (Exact cfg) fun s fi => fi.Ok s.db ∧ fi.Numbered) (hcache : op.KeepsCache)
    (hok : fs.RoundsMeet cfg (Round.Precise cfg) op) (hstep : fs.step cfg op = .ok (fs', out)) :
    fs'.Holds (Exact cfg) fun s fi => fi.Ok s.db ∧ fi.Numbered := by
  refine (exact_keeps cfg).step h hok (fun victims asked => ?_) (fun files asked => ?_) hstep
  all_goals
    rw [asked] at hcache
    exact hcache.elim

end runs

/-- **Use counts are exact** in every state of a run without evictions in which every block write
changes the hash of its block, finds a hole only where `file_blocks` has no row, and uses no
`block_info` that differs from the tables, and in which no block is given up through such a
`block_info`. -/
theorem run_useCount_eq (cfg : Config bits H) (ops : List Op) (fs : Fs bits H) (outs : List Out)
    (hops : ∀ op ∈ ops, op.KeepsCache)
    (hok : Meets (Fs.step cfg) (fun fs op => fs.RoundsMeet cfg (Round.Precise cfg) op)
      (Fs.init bits H) ops)
    (hrun : run (Fs.step cfg) (Fs.init bits H) ops = .ok (fs, outs)) :
    ∀ n row, fs.store.db.blockHashes.find n = some row →
      row.useCount = fs.store.db.refs row.hash := by
  have hinit : (Fs.init bits H).Holds (Exact cfg) fun s fi => fi.Ok s.db ∧ fi.Numbered :=
    ⟨⟨(Fs.init_coherent cfg).1, (counted_init cfg).2, nofun⟩, nofun⟩
  have hfs := run_invariant (G := fun fs op => op.KeepsCache ∧
      fs.RoundsMeet cfg (Round.Precise cfg) op)
    (fun fs op fs' out h hok hstep => Fs.step_exact h hok.1 hok.2 hstep) hinit
    (hok.and_mem hops) hrun
  intro n row hrow
  have hhash : fs.store.db.rowHash n = some row.hash := by
    rw [Db.rowHash, hrow]
    rfl
  have huse : fs.store.db.useOf n = some row.useCount := by
    rw [Db.useOf, hrow]
    rfl
  exact (hfs.1.counted.use n row.hash row.useCount hhash huse).symm

/-- Two files shared a block, and one of them was removed while it was open: the use count is 1,
and one block of a file has the hash. -/
theorem run_useCount_eq_shared :
    (Fs.after (plainConfig 0) [.create ['/', 'f'] sIfreg, .write 0 [7] 0,
        .create ['/', 'g'] sIfreg, .write 1 [7] 0,
        .unlink ['/', 'f']]).store.db.blockHashes.find 1 =
      some ⟨1, [7], 1⟩ ∧
    (1 : ℤ) = (Fs.after (plainConfig 0) [.create ['/', 'f'] sIfreg, .write 0 [7] 0,
        .create ['/', 'g'] sIfreg, .write 1 [7] 0, .unlink ['/', 'f']]).store.db.refs [7] := by
  refine ⟨rfl, run_useCount_eq (plainConfig 0) [.create ['/', 'f'] sIfreg, .write 0 [7] 0,
    .create ['/', 'g'] sIfreg, .write 1 [7] 0, .unlink ['/', 'f']] _
    [.opened 0, .ret 1, .opened 1, .ret 1, .ret 0] ?_ ?_ rfl 1 ⟨1, [7], 1⟩ rfl⟩
  · simp [Op.KeepsCache]
  · refine .cons (fun _ _ h => nomatch h) rfl (.cons (fun fi rs h => ?_) rfl
      (.cons (fun _ _ h => nomatch h) rfl (.cons (fun fi rs h => ?_) rfl
      (.cons (fun fi rs h => ?_) rfl trivial))))
    · cases h
      exact .cons trivial rfl (.cons ⟨fun h => (nomatch h.1), fun _ hitem => (nomatch hitem),
        fun _ _ => nofun⟩ rfl trivial)
    · cases h
      exact .cons trivial rfl (.cons ⟨fun h => (nomatch h.1), fun _ hitem => (nomatch hitem),
        fun _ _ => nofun⟩ rfl trivial)
    · cases h
      exact .cons (fun _ hitem => (nomatch hitem)) rfl (.cons trivial rfl trivial)

/-- **An identical rewrite lowers the count**: after the bytes 7 were written twice to one file,
its block has one reference and the use count 0. -/
theorem identical_rewrite_lowers_count :
    ¬∀ n row, (Fs.after (plainConfig 0) [.create ['/', 'f'] sIfreg, .write 0 [7] 0,
        .write 0 [7] 0]).store.db.blockHashes.find n = some row →
      row.useCount = (Fs.after (plainConfig 0) [.create ['/', 'f'] sIfreg, .write 0 [7] 0,
        .write 0 [7] 0]).store.db.refs row.hash := by
  intro hall
  have h := hall 1 ⟨1, [7], 0⟩ rfl
  revert h
  decide

end Wwdedup
