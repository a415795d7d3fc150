import Wwdedup.OwnedBlocks
import Wwdedup.ReadYourWrites
import Wwdedup.UseCounts

/-!
# What a handle knows

A handle that knows its file has the size that `files` has, and each of its `block_info`s says
what the tables say of the block (`Knows`).  So does a handle that was just made.  It stays so
along runs in which no request works on a file that another handle is open on (`Alone`): then a
handle is in step with the tables, takes no block for a hole that has a row, and knows the size
(`Attached`).
-/

namespace Wwdedup

open GuardedRun

variable {bits : ℕ} {H : Type} [DecidableEq H]

/-! ### What the handle knows -/

/-- The `block_info` says what the tables say of the block: that it is a hole, its hash and the
number of the row, or a hash that has no row. -/
inductive Db.Says (db : Db H) (f o : ℕ) (item : BlockInfo H) : Prop
  | hole (unmapped : db.fileHash f o = none) (hash : item.hash = .null)
  | block (g : H) (mapped : db.fileHash f o = some g)
      (row : db.rowHash item.storageBlockNum = some g) (hash : item.hash = .digest g)
  | dangling (g : H) (mapped : db.fileHash f o = some g) (absent : ∀ k, db.rowHash k ≠ some g)
      (hash : item.hash = .empty) (num : item.storageBlockNum = 0)

/-- The handle has the size that `files` has, and its entries say what the tables say. -/
structure FileInfo.Knows (fi : FileInfo H) (db : Db H) : Prop where
  size : ∃ row, db.files.find fi.stIno = some row ∧ row.size = fi.stSize
  infos : ∀ n item, fi.blocks n = some item → db.Says fi.stIno n item

section knows

variable {cfg : Config bits H} {db db' : Db H} {fi : FileInfo H} {n : ℕ} {item : BlockInfo H}

omit [DecidableEq H] in
theorem Db.Says.congr {f o : ℕ} (h : db.Says f o item) (hfile : db'.fileHash f o = db.fileHash f o)
    (hrow : ∀ k, db'.rowHash k = db.rowHash k) : db'.Says f o item := by
  cases h with
  | hole unmapped hash => exact .hole (hfile.trans unmapped) hash
  | block g mapped row hash => exact .block g (hfile.trans mapped) ((hrow _).trans row) hash
  | dangling g mapped absent hash num =>
    refine .dangling g (hfile.trans mapped) (fun k => ?_) hash num
    rw [hrow]
    exact absent k

omit [DecidableEq H] in
/-- A `file_info` that was just made knows its file. -/
theorem FileInfo.Knows.getByPath {path : Path} (hino : (db.getByPath path).stIno ≠ 0) :
    (db.getByPath path).Knows db := by
  obtain ⟨row, hmem, -, hinfo⟩ := Db.getByPath_of_ne_zero hino
  refine ⟨⟨row, ?_, ?_⟩, fun n item hitem => ?_⟩
  · rw [hinfo]
    exact KeyedTable.find_of_mem hmem
  · rw [hinfo]
    rfl
  · rw [Db.getByPath_blocks] at hitem
    cases hitem

/-- What `releaseStorageBlock` takes for the block is what the tables say. -/
theorem FileInfo.Knows.held (h : fi.Knows db) (hin : ¬(n : ℤ) * cfg.dbBlockSize > fi.stSize) :
    db.Says fi.stIno n (heldBlock cfg db fi n) := by
  unfold heldBlock
  cases hfb : fi.blocks n with
  | some item => exact h.infos n item hfb
  | none =>
    dsimp only
    have hl := loadFileBlock_loads cfg db fi n
    generalize loadFileBlock cfg db fi (.new n) = q at hl ⊢
    cases hl with
    | skipped past => exact absurd past hin
    | absent unmapped => exact .hole unmapped rfl
    | dangling g mapped sel => exact .dangling g mapped (Db.selectBlockHash_none sel) rfl rfl
    | found row mapped sel => exact .block row.hash mapped (Db.rowHash_of_select sel) rfl

end knows

/-! ### The rounds of the only handle -/

/-- What a handle knows that alone works on its file. -/
structure Attached (s : Store bits H) (fi : FileInfo H) : Prop where
  synced : Synced s fi
  holes : ∀ n item, fi.blocks n = some item → item.hash = .null →
    s.db.fileHash fi.stIno n = none
  size : ∃ row, s.db.files.find fi.stIno = some row ∧ row.size = fi.stSize

/-- Every hash of `file_blocks` has a row. -/
def Db.Found (db : Db H) : Prop := ∀ f o g, db.fileHash f o = some g → ∃ k, db.rowHash k = some g

/-- The condition of the first exit of `loadFileBlock`. -/
def Config.Skips (cfg : Config bits H) (fi : FileInfo H) (n : ℕ) : Prop :=
  (n : ℤ) * cfg.dbBlockSize > fi.stSize

/-- The database layer leaves the block of the round out only if it has no row. -/
def Round.Finds (cfg : Config bits H) (p : Store bits H × FileInfo H) : Round → Prop
  | .write _ c => cfg.Skips p.2 c.block → p.1.db.fileHash p.2.stIno c.block = none
  | .read c => cfg.Skips p.2 c.block → p.1.db.fileHash p.2.stIno c.block = none
  | _ => True

/-- The block whose `block_info` the round asks for. -/
def Round.block : Round → Option ℕ
  | .resize _ => none
  | .write _ c => some c.block
  | .read c => some c.block
  | .release curBlock => some curBlock

section attached

variable {cfg : Config bits H} {s s' : Store bits H} {fi fi' fj : FileInfo H} {n : ℕ}

section

omit [DecidableEq H]

theorem Attached.knows (h : Attached s fi) : fi.Knows s.db := by
  refine ⟨h.size, fun n item hitem => ?_⟩
  rcases h.synced n item hitem with ⟨hnull, -⟩ | ⟨g, hg, hfile, hrow⟩
  · exact .hole (h.holes n item hitem hnull) hnull
  · exact .block g hfile hrow hg

theorem Attached.size_eq {row : FileRow} (h : Attached s fi)
    (hrow : s.db.files.find fi.stIno = some row) : fi.stSize = row.size := by
  obtain ⟨row', hrow', hsize⟩ := h.size
  rw [hrow] at hrow'
  cases hrow'
  exact hsize.symm

theorem Attached.getByPath {path : Path} (hino : (s.db.getByPath path).stIno ≠ 0) :
    Attached s (s.db.getByPath path) where
  synced := .getByPath s path
  holes n item hitem := by
    rw [Db.getByPath_blocks] at hitem
    cases hitem
  size := (FileInfo.Knows.getByPath hino).size

/-- The tables may change where the handle does not look. -/
theorem Attached.congr (h : Attached s fi) (hfile : ∀ f o, s'.db.fileHash f o = s.db.fileHash f o)
    (hrow : ∀ k, s'.db.rowHash k = s.db.rowHash k)
    (hkept : s.db.FileKept s'.db fi.stIno) : Attached s' fi where
  synced := h.synced.of_rows hfile hrow rfl rfl
  holes n item hitem hnull := (hfile _ _).trans (h.holes n item hitem hnull)
  size := by
    obtain ⟨row, hfind, hsize⟩ := h.size
    obtain ⟨row', hfind', hsize', -⟩ := hkept row hfind
    exact ⟨row', hfind', hsize'.trans hsize⟩

end

/-- A block that is located without a hash has no row. -/
theorem hole_of_located (h : ∀ item, fi.blocks n = some item → item.hash = .null →
      s.db.fileHash fi.stIno n = none)
    (hin : cfg.Skips fi n → s.db.fileHash fi.stIno n = none)
    (hnull : (getLockedFileBlock cfg s fi n).fblock.hash = .null) :
    s.db.fileHash fi.stIno n = none := by
  have hitem : (fileBlock cfg s fi n).1.hash = .null := by
    have hloc := getLockedFileBlock_locates cfg s fi n
    generalize getLockedFileBlock cfg s fi n = l at hloc hnull
    cases hloc with
    | kept => exact hnull
    | reloaded => exact hnull
  unfold fileBlock at hitem
  cases hfb : fi.blocks n with
  | some item =>
    rw [hfb] at hitem
    exact h item hfb hitem
  | none =>
    rw [hfb] at hitem
    dsimp only at hitem
    have hl := loadFileBlock_loads cfg s.db fi n
    generalize loadFileBlock cfg s.db fi (.new n) = q at hl hitem
    cases hl with
    | skipped past => exact hin past
    | absent unmapped => exact unmapped
    | dangling g mapped sel => cases hitem
    | found row mapped sel => cases hitem

omit [DecidableEq H] in
theorem find_ftruncate {db : Db H} (hsize : ∃ row, db.files.find fi.stIno = some row ∧
    row.size = fi.stSize) (n id : ℕ) : (db.ftruncate fi n).1.files.find id =
      (db.files.find id).map fun row => if id = fi.stIno then { row with size := n } else row := by
  by_cases hn : fi.stSize = n
  · obtain ⟨row, hrow, hrs⟩ := hsize
    have hkeep : (db.ftruncate fi n).1 = db := by
      unfold Db.ftruncate
      rw [if_neg (by omega), if_pos (by omega)]
    rw [hkeep]
    by_cases hid : id = fi.stIno
    · rw [hid, hrow, Option.map_some, if_pos rfl, ← hn, ← hrs]
    · simp only [hid, if_false, Option.map_id']
  · rw [ftruncate_of_ne db hn, Db.find_updateFileSize]
    cases hfind : db.files.find id with
    | none => rfl
    | some row =>
      rw [Option.map_some, Option.map_some, KeyedTable.key_of_find hfind]

/-- A round changes no file block and no row of another file. -/
theorem roundStep_others {r : Round} {out : List UInt8}
    (hr : roundStep cfg (s, fi) r = .ok ((s', fi'), out)) {f : ℕ} (hne : f ≠ fi.stIno) :
    (∀ o, s'.db.fileHash f o = s.db.fileHash f o) ∧ s.db.FileKept s'.db f := by
  refine ⟨fun o => ?_, fun row hrow => ⟨row, ?_, rfl, rfl⟩⟩
  · cases roundStep_stepped hr with
    | resize newSize => rw [Store.setDb_db, fileHash_ftruncate]
    | read c x touched shown =>
      rw [touched.same.db, (getLockedFileBlock_locates cfg s fi c.block).db_eq]
    | write buf c old touched shown ran wrote =>
      rw [wrote.fileHash_eq, if_neg fun heq => hne (Prod.mk.inj heq).1, touched.same.db,
        (getLockedFileBlock_locates cfg s fi c.block).db_eq]
    | release n g hash =>
      rw [released_db, fileHash_released, if_neg fun heq => hne (Prod.mk.inj heq).1]
  · rcases roundStep_files hr with heq | ⟨size, heq⟩
    · rw [heq]
      exact hrow
    · rw [heq, Db.find_updateFileSize, hrow, Option.map_some, if_neg]
      rw [KeyedTable.key_of_find hrow]
      exact hne

omit [DecidableEq H] in
/-- A change to one file block leaves every hash with its row, when that block gets one. -/
theorem Db.Found.kept {db db' : Db H} {ino : ℕ} (h : db.Found) (hkept : db.KeptBut db' ino n)
    (hsub : ∀ f o g, (f, o) ≠ (ino, n) → db'.fileHash f o = some g → db.fileHash f o = some g)
    (hself : ∀ g, db'.fileHash ino n = some g → ∃ k, db'.rowHash k = some g) : db'.Found := by
  intro f o g hf
  by_cases heq : (f, o) = (ino, n)
  · obtain ⟨rfl, rfl⟩ := Prod.mk.inj heq
    exact hself g hf
  · have hold := hsub f o g heq hf
    obtain ⟨k, hk⟩ := h f o g hold
    exact ⟨k, (hkept f o g k heq hold hk).2⟩

theorem roundStep_found (hfound : s.db.Found) (hco : Coherent cfg s) (hfi : fi.Ok s.db)
    {r : Round} {out : List UInt8} (hunshared : r.Unshared cfg (s, fi))
    (hr : roundStep cfg (s, fi) r = .ok ((s', fi'), out)) : s'.db.Found := by
  cases roundStep_stepped hr with
  | resize newSize =>
    intro f o g hf
    rw [Store.setDb_db, fileHash_ftruncate] at hf
    obtain ⟨k, hk⟩ := hfound f o g hf
    exact ⟨k, by rw [Store.setDb_db, rowHash_ftruncate, hk]⟩
  | read c x touched shown =>
    rw [touched.same.db, (getLockedFileBlock_locates cfg s fi c.block).db_eq]
    exact hfound
  | @write buf c s₁ old touched shown r ran wrote =>
    obtain ⟨hl, hnum, hfb⟩ := hco.locate hfi c.block
    have hdb : s₁.db = s.db :=
      touched.same.db.trans (getLockedFileBlock_locates cfg s fi c.block).db_eq
    have hb := (hl.touches touched).backed (hdb ▸ hfb)
    obtain ⟨_, _, _, hrep, -⟩ := wrote.replaces
    have hkept := hrep.keptBut hb ((hunshared _ ⟨old, shown, rfl⟩).congr touched.same)
    rw [hnum, hdb] at hkept
    have hfile := wrote.fileHash_eq
    rw [hnum, hdb] at hfile
    refine Db.Found.kept hfound hkept (fun f o g hne hf => ?_) fun g hg => ?_
    · rw [hfile, if_neg hne] at hf
      exact hf
    · rw [hfile, if_pos rfl] at hg
      refine ⟨r.2.storageBlockNum, ?_⟩
      rw [wrote.rowHash_eq hb, if_pos rfl]
      exact hg
  | release n g hash =>
    rw [released_db]
    refine hfound.kept (s.db.keptBut_released fi.stIno n g) (fun f o g' hne hf => ?_)
      fun g' hg => ?_
    · rw [fileHash_released, if_neg hne] at hf
      exact hf
    · rw [fileHash_released, if_pos rfl] at hg
      cases hg

/-- The blocks that the only handle takes for holes have no rows after the round. -/
theorem roundStep_holes (h : Attached s fi) (hfi : fi.Ok s.db) (hco : Coherent cfg s)
    {r : Round} {out : List UInt8} (hin : r.Finds cfg (s, fi))
    (hr : roundStep cfg (s, fi) r = .ok ((s', fi'), out)) :
    ∀ n item, fi'.blocks n = some item → item.hash = .null → s'.db.fileHash fi'.stIno n = none := by
  intro n item hitem hnull
  cases roundStep_stepped hr with
  | resize newSize =>
    rw [blocks_ftruncate] at hitem
    rw [Store.setDb_db, fileHash_ftruncate, stIno_ftruncate]
    exact h.holes n item hitem hnull
  | read c x touched shown =>
    rw [touched.same.db, (getLockedFileBlock_locates cfg s fi c.block).db_eq]
    rw [FileInfo.setBlock_blocks, (hco.locate hfi c.block).2.1] at hitem
    by_cases hn : n = c.block
    · rw [hn, Function.update_self] at hitem
      cases hitem
      have hhole := hole_of_located (h.holes c.block) hin hnull
      rw [hn]
      exact hhole
    · rw [Function.update_of_ne hn] at hitem
      exact h.holes n item hitem hnull
  | write buf c old touched shown ran wrote =>
    have hnum := (hco.locate hfi c.block).2.1
    rw [FileInfo.setBlock_blocks, FileInfo.setBlock_blocks, wrote.fblock_eq.1, hnum] at hitem
    by_cases hn : n = c.block
    · rw [hn, Function.update_self] at hitem
      cases hitem
      rw [wrote.fblock_eq.2.1] at hnull
      cases hnull
    · rw [Function.update_of_ne hn, Function.update_of_ne hn] at hitem
      rw [wrote.fileHash_eq, hnum, if_neg fun heq => hn (Prod.mk.inj heq).2, touched.same.db,
        (getLockedFileBlock_locates cfg s fi c.block).db_eq]
      exact h.holes n item hitem hnull
  | release m g hash =>
    rw [released_db, fileHash_released]
    rw [FileInfo.dropBlock_blocks] at hitem
    by_cases hn : n = m
    · rw [hn, Function.update_self] at hitem
      cases hitem
    · rw [Function.update_of_ne hn] at hitem
      rw [if_neg fun heq => hn (Prod.mk.inj heq).2]
      exact h.holes n item hitem hnull

/-- The only handle knows the size after the round. -/
theorem roundStep_size (h : ∃ row, s.db.files.find fi.stIno = some row ∧ row.size = fi.stSize)
    {r : Round} {out : List UInt8} (hr : roundStep cfg (s, fi) r = .ok ((s', fi'), out)) :
    ∃ row, s'.db.files.find fi'.stIno = some row ∧ row.size = fi'.stSize := by
  cases roundStep_stepped hr with
  | resize newSize =>
    obtain ⟨row, hrow, -⟩ := id h
    refine ⟨{ row with size := newSize }, ?_, (stSize_ftruncate ..).symm⟩
    rw [Store.setDb_db, stIno_ftruncate, find_ftruncate h, hrow, Option.map_some, if_pos rfl]
  | read c x touched shown =>
    rw [touched.same.db, (getLockedFileBlock_locates cfg s fi c.block).db_eq]
    exact h
  | write buf c old touched shown ran wrote =>
    rw [wrote.files_eq, touched.same.db, (getLockedFileBlock_locates cfg s fi c.block).db_eq]
    exact h
  | release n g hash =>
    rw [released_db, files_released]
    exact h

/-- **A round of the only handle of a file** leaves it so that it knows the file, and every handle
of another file too. -/
theorem roundStep_attached (hfound : s.db.Found) (hco : Coherent cfg s) (hfi : fi.Ok s.db)
    (h : Attached s fi) {r : Round} {out : List UInt8} (hunshared : r.Unshared cfg (s, fi))
    (hin : r.Finds cfg (s, fi)) (hr : roundStep cfg (s, fi) r = .ok ((s', fi'), out)) :
    Attached s' fi' ∧ ∀ fj, fj.stIno ≠ fi.stIno → Attached s fj → Attached s' fj := by
  obtain ⟨hsync, hothers⟩ := roundStep_synced hfound hco hfi h.synced hunshared hr
  refine ⟨⟨hsync, roundStep_holes h hfi hco hin hr, roundStep_size h.size hr⟩, fun fj hne hfj => ?_⟩
  obtain ⟨hfile, hkept⟩ := roundStep_others hr hne
  refine ⟨hothers fj hfj.synced fun heq => absurd heq hne, fun n item hitem hnull => ?_, ?_⟩
  · rw [hfile]
    exact hfj.holes n item hitem hnull
  · obtain ⟨row, hrow, hsize⟩ := hfj.size
    obtain ⟨row', hrow', hsize', -⟩ := hkept row hrow
    exact ⟨row', hrow', hsize'.trans hsize⟩

end attached

/-! ### Requests -/

section requests

variable {cfg : Config bits H} {s s' : Store bits H} {fi fi' : FileInfo H}

/-- What the rounds of a request of the only handle keep. -/
structure Attends (cfg : Config bits H) (ino : ℕ) (p : Store bits H × FileInfo H) : Prop where
  coherent : Coherent cfg p.1
  ok : p.2.Ok p.1.db
  found : p.1.db.Found
  attached : Attached p.1 p.2
  stIno : p.2.stIno = ino

theorem roundStep_attends {p p' : Store bits H × FileInfo H} {ino : ℕ} (h : Attends cfg ino p)
    {r : Round} {out : List UInt8} (hunshared : r.Unshared cfg p) (hin : r.Finds cfg p)
    (hr : roundStep cfg p r = .ok (p', out)) : Attends cfg ino p' := by
  obtain ⟨hco', hfi', -⟩ := roundStep_coherent h.coherent h.ok hr
  exact ⟨hco', hfi', roundStep_found h.found h.coherent h.ok hunshared hr,
    (roundStep_attached h.found h.coherent h.ok h.attached hunshared hin hr).1,
    (roundStep_getByPath hr).1.trans h.stIno⟩

/-- **The rounds of a request of the only handle.** -/
theorem run_attached {rs : List Round} {os : List (List UInt8)} (h : Attends cfg fi.stIno (s, fi))
    (hok : Meets (roundStep cfg) (fun p r => r.Unshared cfg p ∧ r.Finds cfg p) (s, fi) rs)
    (hrun : run (roundStep cfg) (s, fi) rs = .ok ((s', fi'), os)) :
    s'.db.Found ∧ Attached s' fi' ∧ ∀ fj, fj.stIno ≠ fi.stIno → Attached s fj → Attached s' fj := by
  let I : Store bits H × FileInfo H → Prop := fun p => Attends cfg fi.stIno p ∧
    ∀ fj : FileInfo H, fj.stIno ≠ fi.stIno → Attached s fj → Attached p.1 fj
  have hstep : ∀ p r p' o, I p → (Round.Unshared cfg p r ∧ Round.Finds cfg p r) →
      roundStep cfg p r = .ok (p', o) → I p' := by
    intro p r p' o hp hg hr
    refine ⟨roundStep_attends hp.1 hg.1 hg.2 hr, fun fj hne hfj => ?_⟩
    refine (roundStep_attached hp.1.found hp.1.coherent hp.1.ok hp.1.attached hg.1 hg.2 hr).2 fj ?_
      (hp.2 fj hne hfj)
    rw [hp.1.stIno]
    exact hne
  have hrest : I (s', fi') := run_invariant hstep ⟨h, fun _ _ hfj => hfj⟩ hok hrun
  exact ⟨hrest.1.found, hrest.1.attached, hrest.2⟩

/-- Chunks lie in blocks that start no later than the end of the range. -/
theorem Tiles.block_le {offset p q : ℕ} {cs : List Chunk} (h : Tiles bits offset p cs q) :
    ∀ c ∈ cs, c.block * blockSize bits ≤ offset + q := by
  induction h with
  | nil p => exact fun c hc => absurd hc List.not_mem_nil
  | cons pos place fits rest ih =>
    intro c hc
    rcases List.mem_cons.mp hc with rfl | hc
    · have hle := rest.le
      omega
    · exact ih c hc

/-- A read or a write leaves the size of the handle. -/
theorem roundStep_stSize {r : Round} {out : List UInt8}
    (hr : roundStep cfg (s, fi) r = .ok ((s', fi'), out)) (hsize : ∀ n, r ≠ .resize n) :
    fi'.stSize = fi.stSize := by
  cases roundStep_stepped hr with
  | resize n => exact absurd rfl (hsize n)
  | read c x touched shown => rfl
  | write buf c old touched shown ran wrote => rfl
  | release n g hash => rfl

/-- The block of the round starts inside the size of the handle, or at its end. -/
def Round.Inside (p : Store bits H × FileInfo H) (r : Round) : Prop :=
  ∀ n, r.block = some n → n * blockSize bits ≤ p.2.stSize

/-- Blocks inside the size, and then rounds without a block. -/
theorem meets_inside {rs : List Round}
    (hrs : ∀ r ∈ rs, ∃ n, r.block = some n ∧ n * blockSize bits ≤ fi.stSize) (rest : List Round)
    (hrest : ∀ r ∈ rest, r.block = none) :
    Meets (roundStep cfg) (fun p r => r.Inside p) (s, fi) (rs ++ rest) := by
  induction rs generalizing s fi with
  | nil =>
    refine ((meets_of_forall (G := fun _ _ => True) (fun _ _ => trivial) _ _).and_mem hrest).mono ?_
    rintro p r ⟨hnone, -⟩ n hn
    rw [hnone] at hn
    cases hn
  | cons r rs ih =>
    obtain ⟨n, hblock, hle⟩ := hrs r (List.mem_cons_self ..)
    refine ⟨fun m hm => ?_, ?_⟩
    · rw [hblock] at hm
      cases hm
      exact hle
    · rintro ⟨s₁, fi₁⟩ out hr
      have hsize : fi₁.stSize = fi.stSize := by
        refine roundStep_stSize hr ?_
        rintro k rfl
        cases hblock
      refine ih fun r' hr' => ?_
      rw [hsize]
      exact hrs r' (List.mem_cons_of_mem _ hr')

theorem truncateRounds_inside (n : ℕ) :
    Meets (roundStep cfg) (fun p r => r.Inside p) (s, fi) (truncateRounds bits fi n) := by
  have hpos := blockSize_pos bits
  unfold truncateRounds
  split
  · exact meets_inside (fun r hr => absurd hr List.not_mem_nil) _ fun r hr => by
      rw [List.mem_singleton.mp hr]
      rfl
  · rename_i hgt
    refine meets_inside (fun r hr => ?_) _ fun r hr => ?_
    · obtain ⟨m, hm, rfl⟩ := List.mem_map.mp hr
      refine ⟨m, rfl, ?_⟩
      rw [List.mem_range'_1, if_pos (by omega)] at hm
      have hlast : m ≤ (fi.stSize - 1) / blockSize bits := by
        rw [blockSize_eq, ← Nat.shiftRight_eq_div_pow]
        omega
      have hle := (Nat.le_div_iff_mul_le hpos).mp hlast
      omega
    · rw [List.mem_singleton.mp hr]
      rfl

/-- A read starts inside the file or at its end. -/
def Fs.StartsInside (fs : Fs bits H) : Op → Prop
  | .read fh _ offset => ∀ fi, fs.handles fh = some fi → offset ≤ fi.stSize
  | _ => True

/-- **Every request asks for blocks inside the size only**, unless it is a read behind the end. -/
theorem rounds_inside {fs : Fs bits H} {op : Op} {rs : List Round} (hstart : fs.StartsInside op)
    (hr : fs.rounds op = some (fi, rs)) :
    Meets (roundStep cfg) (fun p r => r.Inside p) (fs.store, fi) rs := by
  have hchunks : ∀ (mk : Chunk → Round) (p : Store bits H × FileInfo H) (size offset : ℕ),
      (∀ c, (mk c).block = some c.block) → offset + size ≤ p.2.stSize →
      Meets (roundStep cfg) (fun p r => r.Inside p) p ((chunks bits size offset).map mk) := by
    rintro mk ⟨s₁, fi₁⟩ size offset hmk hle
    rw [← List.append_nil ((chunks bits size offset).map mk)]
    refine meets_inside (fun r hr => ?_) [] fun r hr => absurd hr List.not_mem_nil
    obtain ⟨c, hc, rfl⟩ := List.mem_map.mp hr
    exact ⟨c.block, hmk c, le_trans ((chunks_tiles bits size offset).block_le c hc) hle⟩
  cases op with
  | write fh buf offset =>
    obtain ⟨fi₀, -, heq⟩ := Option.map_eq_some_iff.mp hr
    cases heq
    unfold writeRounds
    split
    · refine ⟨fun n hn => (by cases hn), ?_⟩
      rintro ⟨s₁, fi₁⟩ out hresize
      cases hresize
      refine hchunks (.write buf) _ _ _ (fun c => rfl) ?_
      rw [stSize_ftruncate]
      omega
    · exact hchunks (.write buf) _ _ _ (fun c => rfl) (by dsimp only; omega)
  | read fh size offset =>
    obtain ⟨fi₀, hfi₀, heq⟩ := Option.map_eq_some_iff.mp hr
    cases heq
    have hle : offset ≤ fi.stSize := hstart fi (Option.filter_eq_some_iff.mp hfi₀).1
    refine hchunks .read _ _ _ (fun c => rfl) ?_
    dsimp only
    split <;> omega
  | ftruncate fh newSize =>
    simp only [Fs.rounds] at hr
    split at hr
    · cases hr
    · obtain ⟨fi₀, -, heq⟩ := Option.map_eq_some_iff.mp hr
      cases heq
      exact truncateRounds_inside _
  | truncate path newSize =>
    simp only [Fs.rounds] at hr
    split at hr
    · cases hr
    · cases hr
      exact truncateRounds_inside _
  | unlink path =>
    simp only [Fs.rounds] at hr
    split at hr
    · cases hr
    · cases hr
      exact truncateRounds_inside _
  | create | mkdir | openFile | release | rmdir | rename | writerPass | remount | clock => cases hr

omit [DecidableEq H] in
/-- A read behind the end has one round. -/
theorem readRounds_behind {size offset : ℕ} (hlt : fi.stSize < offset) :
    ∃ c, readRounds bits fi size offset = [.read c] := by
  have hclamp : (if size + offset > fi.stSize then fi.stSize - offset else size) = 0 := by
    split <;> omega
  unfold readRounds
  rw [hclamp]
  exact ⟨_, rfl⟩

/-- **A database layer whose block size is not larger finds the blocks of every request** through a
handle that knows the size, when every block lies inside its file. -/
theorem rounds_finds {fs : Fs bits H} {op : Op} {rs : List Round}
    (hdb : cfg.dbBlockSize ≤ blockSize bits) (howned : OwnedBlocks bits fs.store.db)
    (hsize : ∃ row, fs.store.db.files.find fi.stIno = some row ∧ row.size = fi.stSize)
    (hr : fs.rounds op = some (fi, rs)) :
    Meets (roundStep cfg) (fun p r => r.Finds cfg p) (fs.store, fi) rs := by
  have hinside : fs.StartsInside op → Meets (roundStep cfg) (fun p r => r.Finds cfg p)
      (fs.store, fi) rs := by
    intro hstart
    refine (rounds_inside hstart hr).mono fun p r hin => ?_
    cases r with
    | write buf c => exact fun hskip => absurd hskip (not_past hdb (hin c.block rfl))
    | read c => exact fun hskip => absurd hskip (not_past hdb (hin c.block rfl))
    | resize newSize => trivial
    | release curBlock => trivial
  cases op with
  | read fh size offset =>
    obtain ⟨fi₀, hfi₀, heq⟩ := Option.map_eq_some_iff.mp hr
    cases heq
    have hfi : fs.handles fh = some fi := (Option.filter_eq_some_iff.mp hfi₀).1
    by_cases hle : offset ≤ fi.stSize
    · refine hinside fun fj hfj => ?_
      rw [hfi] at hfj
      cases hfj
      exact hle
    · -- the only block either starts inside the size or has no row
      obtain ⟨c, hrounds⟩ := readRounds_behind (Nat.lt_of_not_le hle)
      rw [hrounds]
      refine ⟨fun hskip => ?_, fun _ _ _ => trivial⟩
      by_contra hrow
      obtain ⟨g, hg⟩ := Option.ne_none_iff_exists'.mp hrow
      obtain ⟨row, hfind, -, hin⟩ := howned _ _ g hg
      obtain ⟨row', hfind', hrowSize⟩ := hsize
      rw [hfind] at hfind'
      cases hfind'
      rw [hrowSize] at hin
      exact not_past hdb (Nat.le_of_lt hin) hskip
  | create | mkdir | openFile | release | rmdir | rename | writerPass | remount | clock | write
  | truncate | ftruncate | unlink => exact hinside trivial

end requests

/-! ### Runs -/

namespace Fs

/-- No other handle is open on the file that the request works on. -/
def Alone (fs : Fs bits H) (op : Op) : Prop :=
  ∀ fi rs, fs.rounds op = some (fi, rs) → ∀ fh fj, fs.handles fh = some fj →
    op.handle ≠ some fh → fj.stIno ≠ fi.stIno

/-- The request works through a `FileInfo` that knows its file. -/
def Current (fs : Fs bits H) (op : Op) : Prop :=
  ∀ fi rs, fs.rounds op = some (fi, rs) → Attached fs.store fi

/-- `rename` replaces no file that has blocks. -/
def ReplacesEmpty (fs : Fs bits H) : Op → Prop
  | .rename oldPath newPath =>
    ∀ q, fs.store.db.renameCheck oldPath newPath = .ok q →
      ∀ row ∈ fs.store.db.files.rows, row.path = newPath →
        ∀ o, fs.store.db.fileHash row.id o = none
  | _ => True

/-- Every hash has its row, and every handle knows its file. -/
structure Informed (fs : Fs bits H) : Prop where
  found : fs.store.db.Found
  handles : ∀ fh fi, fs.handles fh = some fi → Attached fs.store fi

section steps

variable {cfg : Config bits H} {fs fs' : Fs bits H} {op : Op} {out : Out}

omit [DecidableEq H] in
/-- The handle of a request that was just made knows its file, as the open ones do. -/
theorem Informed.current (h : fs.Informed) : fs.Current op := by
  intro fi rs hr
  cases op with
  | write fh buf offset =>
    obtain ⟨fi', hfi, heq⟩ := Option.map_eq_some_iff.mp hr
    cases heq
    exact h.handles fh fi hfi
  | read fh size offset =>
    obtain ⟨fi', hfi, heq⟩ := Option.map_eq_some_iff.mp hr
    cases heq
    exact h.handles fh fi (Option.filter_eq_some_iff.mp hfi).1
  | ftruncate fh newSize =>
    simp only [Fs.rounds] at hr
    split at hr
    · cases hr
    · obtain ⟨fi', hfi, heq⟩ := Option.map_eq_some_iff.mp hr
      cases heq
      exact h.handles fh fi hfi
  | truncate path newSize =>
    simp only [Fs.rounds] at hr
    split at hr
    · cases hr
    · rename_i hfound
      cases hr
      exact .getByPath fun hzero => hfound (.inl hzero)
  | unlink path =>
    simp only [Fs.rounds] at hr
    split at hr
    · cases hr
    · rename_i hfound
      cases hr
      exact .getByPath fun hzero => hfound (.inl hzero)
  | create | mkdir | openFile | release | rmdir | rename | writerPass | remount | clock => cases hr

/-- A step through a handle that knows its file keeps all blocks owned. -/
theorem Current.step_owned (h : fs.Current op) (hco : fs.Coherent cfg) (howned : fs.Owned)
    (hproper : fs.Proper op) (hempty : fs.ReplacesEmpty op)
    (hstep : fs.step cfg op = .ok (fs', out)) : fs'.Owned := by
  cases op with
  | write fh buf offset =>
    refine Fs.step_owned hco howned hproper (fun fi row hfi hrow => ?_) hstep
    have hr : fs.rounds (.write fh buf offset) = some (fi, writeRounds bits fi buf offset) :=
      Option.map_eq_some_iff.mpr ⟨fi, hfi, rfl⟩
    exact FileInfo.covers_of_eq ((h fi _ hr).size_eq hrow) _
  | ftruncate fh newSize =>
    obtain ⟨rfl, -⟩ | ⟨n, fi, fi', s', os, rfl, hfi, hr, -⟩ := step_ftruncate_ok hstep
    · exact howned
    · refine Fs.step_owned hco howned hproper (fun fi₂ row hfi₂ hrow => ?_) hstep
      cases hfi.symm.trans hfi₂
      exact FileInfo.clears_of_eq ((h fi _ hr).size_eq hrow) _
  | rename oldPath newPath => exact Fs.step_owned hco howned hproper hempty hstep
  | create | mkdir | openFile | release | read | truncate | unlink | rmdir | writerPass | remount
  | clock => exact Fs.step_owned hco howned hproper trivial hstep

/-- A step that overwrites no shared block in place leaves every hash with its row. -/
theorem step_found (h : fs.store.db.Found) (hco : fs.Coherent cfg)
    (hunshared : fs.RoundsMeet cfg (fun p r => r.Unshared cfg p) op)
    (hstep : fs.step cfg op = .ok (fs', out)) : fs'.store.db.Found := by
  have hran : ∀ {fi fi' : FileInfo H} {rs : List Round} {s' : Store bits H}
      {os : List (List UInt8)}, fs.rounds op = some (fi, rs) →
      run (roundStep cfg) (fs.store, fi) rs = .ok ((s', fi'), os) → s'.db.Found := by
    intro fi fi' rs s' os hr hrun
    have hrest := run_invariant
      (I := fun q => Wwdedup.Coherent cfg q.1 ∧ q.2.Ok q.1.db ∧ q.1.db.Found) ?_
      ⟨hco.1, hco.acts_ok hr, h⟩ (hunshared fi rs hr) hrun
    · exact hrest.2.2
    · rintro ⟨s₁, fi₁⟩ r ⟨s₂, fi₂⟩ o ⟨hco₁, hfi₁, hfound⟩ hg hround
      obtain ⟨hco₂, hfi₂, -⟩ := roundStep_coherent hco₁ hfi₁ hround
      exact ⟨hco₂, hfi₂, roundStep_found hfound hco₁ hfi₁ hg hround⟩
  cases step_moves hstep with
  | same => exact h
  | through fh acts opened rounds ran => exact hran rounds ran
  | byPath path acts files rounds ran =>
    have hfound := hran rounds ran
    exact hfound
  | files files => exact h
  | opens path files => exact h
  | closes fh => exact h
  | pass victims asked => exact h
  | remount files asked => exact h
  | clock now => exact h

omit [DecidableEq H] in
/-- Changes of the table `files` that keep the rows of the open files. -/
theorem Informed.setDb (h : fs.Informed) {db : Db H}
    (hfile : ∀ f o, db.fileHash f o = fs.store.db.fileHash f o)
    (hrow : ∀ k, db.rowHash k = fs.store.db.rowHash k)
    (hkept : ∀ fh fi, fs.handles fh = some fi → fs.store.db.FileKept db fi.stIno) :
    (fs.setDb db).Informed where
  found f o g hf := by
    obtain ⟨k, hk⟩ := h.found f o g (hfile f o ▸ hf)
    exact ⟨k, (hrow k).trans hk⟩
  handles fh fi hfi := (h.handles fh fi hfi).congr hfile hrow (hkept fh fi hfi)

omit [DecidableEq H] in
/-- Changes of the cache and the storage. -/
theorem Informed.setStore (h : fs.Informed) {s : Store bits H} (hdb : s.db = fs.store.db) :
    (fs.setStore s).Informed where
  found := by
    show s.db.Found
    rw [hdb]
    exact h.found
  handles fh fi hfi := by
    refine (h.handles fh fi hfi).congr (fun f o => ?_) (fun k => ?_) ?_
    · show s.db.fileHash f o = _
      rw [hdb]
    · show s.db.rowHash k = _
      rw [hdb]
    · show fs.store.db.FileKept s.db _
      rw [hdb]
      exact .refl _ _

/-- The rounds of a request, through an open handle or one of its own. -/
theorem Informed.rounds (h : fs.Informed) (hco : fs.Coherent cfg) (howned : fs.Owned)
    (hdb : cfg.dbBlockSize ≤ blockSize bits) (halone : fs.Alone op)
    (hunshared : fs.RoundsMeet cfg (fun p r => r.Unshared cfg p) op) {fi fi' : FileInfo H}
    {rs : List Round} {s' : Store bits H} {os : List (List UInt8)}
    (hr : fs.rounds op = some (fi, rs)) (hfi : Attached fs.store fi)
    (ran : run (roundStep cfg) (fs.store, fi) rs = .ok ((s', fi'), os)) :
    s'.db.Found ∧ Attached s' fi' ∧ ∀ fh fj, fs.handles fh = some fj → op.handle ≠ some fh →
      Attached s' fj := by
  have hin := rounds_finds hdb howned.blocks hfi.size hr
  have hok : Meets (roundStep cfg) (fun p r => r.Unshared cfg p ∧ r.Finds cfg p)
      (fs.store, fi) rs := (hunshared fi rs hr).and hin
  obtain ⟨hfound, hown, hothers⟩ := run_attached
    ⟨hco.1, hco.acts_ok hr, h.found, hfi, rfl⟩ hok ran
  exact ⟨hfound, hown, fun fh fj hfj hne =>
    hothers fj (halone fi rs hr fh fj hfj hne) (h.handles fh fj hfj)⟩

section

omit [DecidableEq H]

theorem informed_iff : fs.Informed ↔ fs.Holds (fun s => s.db.Found) Attached :=
  ⟨fun h => ⟨h.found, h.handles⟩, fun h => ⟨h.1, h.2⟩⟩

theorem Informed.through {fh : ℕ} {fi' : FileInfo H} {s' : Store bits H}
    (hacts : op.handle = some fh)
    (hrun : s'.db.Found ∧ Attached s' fi' ∧ ∀ fh fj, fs.handles fh = some fj →
      op.handle ≠ some fh → Attached s' fj) :
    ((fs.setStore s').setHandle fh fi').Informed := by
  obtain ⟨hfound, hown, hothers⟩ := hrun
  refine informed_iff.mpr (Holds.setHandle hfound hown fun k fj hne hfj => hothers k fj hfj ?_)
  rw [hacts]
  exact fun heq => hne (Option.some.inj heq).symm

theorem Informed.addHandle (h : fs.Informed) {fi : FileInfo H} (hfi : Attached fs.store fi) :
    (fs.addHandle fi).Informed :=
  informed_iff.mpr ((informed_iff.mp h).addHandle hfi)

theorem Informed.create (h : fs.Informed) (hok : fs.store.db.FilesOk) (path : Path) (mode : ℕ) :
    (fs.setDb (fs.store.db.create path mode).1).Informed := by
  rcases Db.create_cases hok path mode with ⟨heq, -⟩ | ⟨-, -, hkept, -⟩
  · rw [heq]
    exact h
  · obtain ⟨files, hf⟩ := create_setFiles fs.store.db path mode
    refine h.setDb (fun f o => ?_) (fun k => ?_) fun fh fi _ => hkept _
    · rw [hf]
      rfl
    · rw [hf]
      rfl

end

theorem Informed.create_step (h : fs.Informed) (howned : fs.Owned) {path : Path} {mode : ℕ}
    (hstep : fs.step cfg (.create path mode) = .ok (fs', out)) : fs'.Informed := by
  simp only [step, Fs.create, Except.ok.injEq] at hstep
  have hcreate := h.create howned.files path mode
  split at hstep
  · cases hstep
    exact hcreate
  · rename_i hnonneg
    cases hstep
    refine hcreate.addHandle ?_
    obtain ⟨-, hneg⟩ | ⟨-, hok, -, depth, heq, hget⟩ :=
      Db.create_cases howned.files path mode
    · exact absurd hneg hnonneg
    · refine Attached.getByPath (s := (fs.setDb (fs.store.db.create path mode).1).store) ?_
      show ((fs.store.db.create path mode).1.getByPath path).stIno ≠ 0
      rw [hget]
      exact KeyedTable.nextId_pos _

theorem Informed.openFile_step (h : fs.Informed) {path : Path}
    (hstep : fs.step cfg (.openFile path) = .ok (fs', out)) : fs'.Informed := by
  simp only [step, openFile, Except.ok.injEq] at hstep
  split at hstep
  · cases hstep
    exact h
  · rename_i hino
    split at hstep
    · cases hstep
      exact h
    · cases hstep
      exact h.addHandle (.getByPath hino)

/-- The name goes with the last use of its row: the file is not open. -/
theorem Informed.unlink_step (hdb : cfg.dbBlockSize ≤ blockSize bits) (hco : fs.Coherent cfg)
    (howned : fs.Owned) (h : fs.Informed) {path : Path} (hproper : fs.Proper (.unlink path))
    (halone : fs.Alone (.unlink path))
    (hunshared : fs.RoundsMeet cfg (fun p r => r.Unshared cfg p) (.unlink path))
    (hstep : fs.step cfg (.unlink path) = .ok (fs', out)) : fs'.Informed := by
  obtain ⟨rfl, -⟩ | ⟨fi', s', os, hr, hrun, rfl⟩ := step_unlink_ok hstep
  · exact h
  · obtain ⟨hfound, -, hothers⟩ :=
      h.rounds hco howned hdb halone hunshared hr (h.current _ _ hr) hrun
    refine ⟨hfound, fun fh fj hfj => ?_⟩
    refine (hothers fh fj hfj fun heq => by cases heq).congr (fun _ _ => rfl) (fun _ => rfl) ?_
    apply Db.fileKept_remove
    intro row hrow hpath
    -- the path of the row is the one that it had before the truncation
    have hname := run_names hrun fj.stIno
    rw [hrow, Option.map_some, eq_comm, Option.map_eq_some_iff] at hname
    obtain ⟨row₀, hrow₀, hnames⟩ := hname
    refine hproper row₀ (KeyedTable.mem_of_find hrow₀) ?_ fh fj hfj
      (KeyedTable.key_of_find hrow₀).symm
    rw [(Prod.mk.inj hnames).1, hpath]

/-- A replaced file is not open. -/
theorem Informed.rename_step (howned : fs.Owned) (h : fs.Informed) {oldPath newPath : Path}
    (hproper : fs.Proper (.rename oldPath newPath))
    (hstep : fs.step cfg (.rename oldPath newPath) = .ok (fs', out)) : fs'.Informed := by
  cases hstep
  obtain ⟨-, hkept⟩ := Db.rename_kept howned.files oldPath newPath
  obtain ⟨files, hf⟩ := rename_setFiles fs.store.db oldPath newPath
  refine h.setDb (fun f o => ?_) (fun k => ?_) fun fh fi hfi => hkept _ fun q hq row hrow hpath =>
    hproper q hq row (KeyedTable.mem_of_find hrow) hpath fh fi hfi
      (KeyedTable.key_of_find hrow).symm
  · rw [hf]
    rfl
  · rw [hf]
    rfl

/-- **A step leaves the handles so that they know their files**, when no other handle is open on
the file that it works on and it overwrites no shared block in place. -/
theorem step_informed (hdb : cfg.dbBlockSize ≤ blockSize bits) (hco : fs.Coherent cfg)
    (howned : fs.Owned) (h : fs.Informed) (hproper : fs.Proper op) (halone : fs.Alone op)
    (hunshared : fs.RoundsMeet cfg (fun p r => r.Unshared cfg p) op)
    (hstep : fs.step cfg op = .ok (fs', out)) : fs'.Informed := by
  cases op with
  | create path mode => exact h.create_step howned hstep
  | mkdir path mode =>
    cases hstep
    exact h.create howned.files path _
  | openFile path => exact h.openFile_step hstep
  | release fh =>
    cases hstep
    exact informed_iff.mpr ((informed_iff.mp h).close fh)
  | write fh buf offset =>
    obtain ⟨fi, fi', s', os, hfi, hr, hrun, rfl, -⟩ := step_write_ok hstep
    exact Informed.through rfl
      (h.rounds hco howned hdb halone hunshared hr (h.handles fh fi hfi) hrun)
  | read fh size offset =>
    obtain ⟨fi, fi', s', os, hfi, -, hr, hrun, rfl, -⟩ := step_read_ok hstep
    exact Informed.through rfl
      (h.rounds hco howned hdb halone hunshared hr (h.handles fh fi hfi) hrun)
  | ftruncate fh newSize =>
    obtain ⟨rfl, -⟩ | ⟨n, fi, fi', s', os, rfl, hfi, hr, hrun, rfl⟩ := step_ftruncate_ok hstep
    · exact h
    · exact Informed.through rfl
        (h.rounds hco howned hdb halone hunshared hr (h.handles fh fi hfi) hrun)
  | truncate path newSize =>
    obtain ⟨rfl, -⟩ | ⟨n, fi', s', os, rfl, hr, hrun, rfl⟩ := step_truncate_ok hstep
    · exact h
    · obtain ⟨hfound, -, hothers⟩ :=
        h.rounds hco howned hdb halone hunshared hr (h.current _ _ hr) hrun
      exact ⟨hfound, fun fh fj hfj => hothers fh fj hfj fun heq => by cases heq⟩
  | unlink path => exact h.unlink_step hdb hco howned hproper halone hunshared hstep
  | rmdir path memory =>
    obtain rfl | ⟨hdir, -, rfl⟩ := step_rmdir_ok hstep
    · exact h
    · exact h.setDb (fun _ _ => rfl) (fun _ => rfl) fun fh fi hfi =>
        howned.fileKept_rmdir hdir (howned.handles fh fi hfi)
  | rename oldPath newPath => exact h.rename_step howned hproper hstep
  | writerPass victims =>
    cases hstep
    exact h.setStore rfl
  | remount =>
    obtain ⟨-, rfl, -⟩ := step_remount_ok hstep
    exact ⟨(h.create howned.files ['/'] (sIfdir ||| 0o755)).found, fun fh fi hfi => by cases hfi⟩
  | clock now =>
    cases hstep
    exact h.setStore rfl

theorem init_informed (bits : ℕ) (H : Type) [DecidableEq H] : (Fs.init bits H).Informed where
  found f o g hf := by cases hf
  handles fh fi hfi := by cases hfi

/-- What such a step keeps altogether. -/
theorem step_keeps_informed (hdb : cfg.dbBlockSize ≤ blockSize bits)
    (h : fs.Coherent cfg ∧ fs.Owned ∧ fs.Informed) (hproper : fs.Proper op)
    (hempty : fs.ReplacesEmpty op) (halone : fs.Alone op)
    (hunshared : fs.RoundsMeet cfg (fun p r => r.Unshared cfg p) op)
    (hstep : fs.step cfg op = .ok (fs', out)) :
    fs'.Coherent cfg ∧ fs'.Owned ∧ fs'.Informed := by
  obtain ⟨hco, howned, hinf⟩ := h
  exact ⟨Fs.step_coherent hco hstep,
    hinf.current.step_owned hco howned hproper hempty hstep,
    step_informed hdb hco howned hinf hproper halone hunshared hstep⟩

theorem init_all_informed (cfg : Config bits H) : (Fs.init bits H).Coherent cfg ∧
    (Fs.init bits H).Owned ∧ (Fs.init bits H).Informed :=
  ⟨Fs.init_coherent cfg, Fs.init_owned bits H, init_informed bits H⟩

/-- **Every handle knows its file** along runs in which no request works on a file that another
handle is open on, overwrites a shared block in place, or replaces a file that has blocks. -/
theorem run_informed (hdb : cfg.dbBlockSize ≤ blockSize bits) {ops : List Op} {outs : List Out}
    (hok : Meets (Fs.step cfg) (fun fs op => fs.Proper op ∧ fs.ReplacesEmpty op ∧ fs.Alone op ∧
      fs.RoundsMeet cfg (fun p r => r.Unshared cfg p) op) (Fs.init bits H) ops)
    (hrun : run (Fs.step cfg) (Fs.init bits H) ops = .ok (fs, outs)) :
    fs.Coherent cfg ∧ fs.Owned ∧ fs.Informed :=
  run_invariant (I := fun fs => fs.Coherent cfg ∧ fs.Owned ∧ fs.Informed)
    (fun _ _ _ _ h hg hstep => step_keeps_informed hdb h hg.1 hg.2.1 hg.2.2.1 hg.2.2.2 hstep)
    (init_all_informed cfg) hok hrun

end steps

end Fs

end Wwdedup
