import Wwdedup.CachedCounts
import Wwdedup.Knows

/-!
# Truncations are exact

Through a handle that knows its file `truncate` gives up exactly the rows behind the new end when
each block between the new end and the old one has a row.  At a hole it follows the null pointer
that stands for the hash.
-/

namespace Wwdedup

open GuardedRun

variable {bits : ℕ} {H : Type} [DecidableEq H]

/-! ### Counts -/

/-- The rows of `block_hashes` stay, and each count goes down by the number of rows of
`file_blocks` that its hash has lost, in the table and in the cache. -/
structure Store.Lowers (s s' : Store bits H) : Prop where
  hashes : ∀ k, s'.db.rowHash k = s.db.rowHash k
  useCounts : ∀ k g, s.db.rowHash k = some g →
    s'.db.useOf k = (s.db.useOf k).map (· - ((s.db.refs g : ℤ) - s'.db.refs g))
  cached : ∀ k g, s.db.rowHash k = some g →
    s'.cnt k = (s.cnt k).map (· - ((s.db.refs g : ℤ) - s'.db.refs g))
  uncounted : ∀ k, s.db.rowHash k = none → s'.cnt k = s.cnt k

section lowers

variable {s s' s'' : Store bits H}

theorem Store.Lowers.of_eq (hhash : ∀ k, s'.db.rowHash k = s.db.rowHash k)
    (huse : ∀ k, s'.db.useOf k = s.db.useOf k) (hcnt : ∀ k, s'.cnt k = s.cnt k)
    (hrefs : ∀ g, s'.db.refs g = s.db.refs g) : s.Lowers s' := by
  have hsame : ∀ (x : Option ℤ) g, x = x.map (· - ((s.db.refs g : ℤ) - s'.db.refs g)) := by
    intro x g
    rw [hrefs, Int.sub_self]
    simp
  exact ⟨hhash, fun k g _ => (huse k).trans (hsame _ g), fun k g _ => (hcnt k).trans (hsame _ g),
    fun k _ => hcnt k⟩

theorem Store.Lowers.trans (h : s.Lowers s') (h' : s'.Lowers s'') : s.Lowers s'' := by
  have hsum : ∀ (x : Option ℤ) (a b c : ℤ),
      (x.map (· - (a - b))).map (· - (b - c)) = x.map (· - (a - c)) := by
    intro x a b c
    rw [Option.map_map]
    congr 1
    funext y
    show y - (a - b) - (b - c) = y - (a - c)
    omega
  refine ⟨fun k => (h'.hashes k).trans (h.hashes k), fun k g hk => ?_, fun k g hk => ?_,
    fun k hk => ?_⟩
  · rw [h'.useCounts k g ((h.hashes k).trans hk), h.useCounts k g hk, hsum]
  · rw [h'.cached k g ((h.hashes k).trans hk), h.cached k g hk, hsum]
  · rw [h'.uncounted k ((h.hashes k).trans hk), h.uncounted k hk]

theorem refs_released (db : Db H) (ino n : ℕ) (g : Option H) (g' : H) :
    (db.released ino n g).refs g' + (if db.fileHash ino n = some g' then 1 else 0) =
      db.refs g' := by
  cases g with
  | none => exact Db.refs_deleteFileBlock ..
  | some g => exact Db.refs_deleteFileBlock ..

/-- Giving up a block lowers the counts of its hash. -/
theorem lowers_released {ino n num : ℕ} {g : H} (hzero : s.db.rowHash 0 = none)
    (huniq : s.db.HashUnique) (hfile : s.db.fileHash ino n = some g)
    (hrow : s.db.rowHash num = some g) : s.Lowers (s.released ino n (some g) num) := by
  have hne : num ≠ 0 := by
    rintro rfl
    rw [hzero] at hrow
    cases hrow
  have hrefs : ∀ g', (s.db.refs g' : ℤ) - ((s.released ino n (some g) num).db.refs g' : ℤ) =
      if g = g' then 1 else 0 := by
    intro g'
    have h := refs_released s.db ino n (some g) g'
    rw [released_db]
    by_cases hg : g = g'
    · rw [hfile, if_pos (congrArg some hg)] at h
      rw [if_pos hg]
      omega
    · rw [hfile, if_neg fun heq => hg (Option.some.inj heq)] at h
      rw [if_neg hg]
      omega
  have hsame : ∀ x : Option ℤ, x = x.map (· - 0) := fun x => by simp
  refine ⟨fun k => ?_, fun k g' hk => ?_, fun k g' hk => ?_, fun k hk => ?_⟩
  · rw [released_db, rowHash_released]
  · rw [hrefs, released_db, useOf_released_some, hk]
    by_cases hg : g = g'
    · rw [if_pos hg, if_pos (congrArg some hg.symm)]
    · rw [if_neg hg, if_neg fun heq => hg (Option.some.inj heq).symm]
      exact hsame _
  · rw [hrefs, cnt_released]
    by_cases hg : g = g'
    · rw [if_pos hg, if_pos ⟨hne, huniq k num g (hg ▸ hk) hrow⟩]
    · have hkn : k ≠ num := by
        rintro rfl
        rw [hrow] at hk
        exact hg (Option.some.inj hk)
      rw [if_neg hg, if_neg fun h => hkn h.2]
      exact hsame _
  · have hkn : k ≠ num := by
      rintro rfl
      rw [hrow] at hk
      cases hk
    rw [cnt_released, if_neg fun h => hkn h.2]

/-- A block whose hash has no row takes no count with it. -/
theorem lowers_released_dangling {ino n : ℕ} {g : H} (hfile : s.db.fileHash ino n = some g)
    (habsent : ∀ k, s.db.rowHash k ≠ some g) : s.Lowers (s.released ino n none 0) := by
  have hrefs : ∀ k g', s.db.rowHash k = some g' →
      ((s.released ino n none 0).db.refs g') = s.db.refs g' := by
    intro k g' hk
    have h := refs_released s.db ino n none g'
    rw [hfile, if_neg fun heq => habsent k (by rw [hk, ← heq])] at h
    rw [released_db]
    exact h
  have hsame : ∀ (x : Option ℤ) (a : ℤ), x = x.map (· - (a - a)) := fun x a => by simp
  have hcnt : ∀ k, (s.released ino n none 0).cnt k = s.cnt k := by
    intro k
    rw [cnt_released, if_neg fun h => h.1 rfl]
  refine ⟨fun k => ?_, fun k g' hk => ?_, fun k g' hk => ?_, fun k _ => hcnt k⟩
  · rw [released_db, rowHash_released]
  · rw [hrefs k g' hk]
    exact hsame _ _
  · rw [hrefs k g' hk, hcnt]
    exact hsame _ _

end lowers

/-! ### The loop -/

/-- The blocks of the file are gone, their counts are lower, and the rest is as it was. -/
structure Store.Loses (s s' : Store bits H) (fi fi' : FileInfo H) (ns : List ℕ) : Prop where
  files : s'.db.files = s.db.files
  rows : ∀ f o, s'.db.fileHash f o = if f = fi.stIno ∧ o ∈ ns then none else s.db.fileHash f o
  lowers : s.Lowers s'
  stIno : fi'.stIno = fi.stIno
  stSize : fi'.stSize = fi.stSize
  blocks : ∀ n, fi'.blocks n = if n ∈ ns then none else fi.blocks n

section loop

variable {cfg : Config bits H} {s : Store bits H} {fi : FileInfo H} {n : ℕ}

theorem Store.Loses.refl (s : Store bits H) (fi : FileInfo H) : s.Loses s fi fi [] where
  files := rfl
  rows f o := by rw [if_neg fun h => absurd h.2 List.not_mem_nil]
  lowers := .of_eq (fun _ => rfl) (fun _ => rfl) (fun _ => rfl) fun _ => rfl
  stIno := rfl
  stSize := rfl
  blocks n := by rw [if_neg List.not_mem_nil]

theorem loses_released {g : Option H} {num : ℕ} (hlowers : s.Lowers (s.released fi.stIno n g num)) :
    s.Loses (s.released fi.stIno n g num) fi (fi.dropBlock n) [n] where
  files := by rw [released_db, files_released]
  rows f o := by
    rw [released_db, fileHash_released]
    simp only [Prod.mk.injEq, List.mem_singleton]
  lowers := hlowers
  stIno := rfl
  stSize := rfl
  blocks m := by
    show Function.update fi.blocks n none m = _
    rw [Function.update_apply]
    simp only [List.mem_singleton]

theorem Store.Loses.cons {s₁ s₂ : Store bits H} {fi₁ fi₂ : FileInfo H} {ns : List ℕ}
    (h : s.Loses s₁ fi fi₁ [n]) (h' : s₁.Loses s₂ fi₁ fi₂ ns) : s.Loses s₂ fi fi₂ (n :: ns) where
  files := h'.files.trans h.files
  rows f o := by
    rw [h'.rows, h.rows, h.stIno]
    by_cases hf : f = fi.stIno <;> by_cases hn : o = n <;> by_cases hns : o ∈ ns <;>
      simp [hf, hn, hns]
  lowers := h.lowers.trans h'.lowers
  stIno := h'.stIno.trans h.stIno
  stSize := h'.stSize.trans h.stSize
  blocks m := by
    rw [h'.blocks, h.blocks]
    by_cases hn : m = n <;> by_cases hns : m ∈ ns <;> simp [hn, hns]

/-- The handle knows the file without the block. -/
theorem Store.Loses.knows {s' : Store bits H} {fi' : FileInfo H} (h : s.Loses s' fi fi' [n])
    (hk : fi.Knows s.db) : fi'.Knows s'.db := by
  obtain ⟨row, hrow, hsize⟩ := hk.size
  refine ⟨⟨row, ?_, ?_⟩, fun m item hitem => ?_⟩
  · rw [h.files, h.stIno]
    exact hrow
  · rw [h.stSize]
    exact hsize
  · rw [h.blocks] at hitem
    split at hitem
    · cases hitem
    · rename_i hm
      rw [h.stIno]
      refine (hk.infos m item hitem).congr ?_ h.lowers.hashes
      rw [h.rows, if_neg fun heq => hm heq.2]

theorem releaseStorageBlock_null {db : Db H} {e : Fault}
    (h : releaseStorageBlock cfg db fi n = .error e) : (heldBlock cfg db fi n).hash = .null := by
  unfold releaseStorageBlock at h
  dsimp only at h
  split at h
  · rename_i hhash
    exact hhash
  · cases h
  · cases h

theorem releaseStorageBlock_of_hash {db : Db H} {g : Option H}
    (hg : (heldBlock cfg db fi n).hash = g.elim .empty .digest) :
    releaseStorageBlock cfg db fi n = .ok
      (db.released fi.stIno n g, fi.dropBlock n, (heldBlock cfg db fi n).storageBlockNum) := by
  cases hr : releaseStorageBlock cfg db fi n with
  | error e =>
    rw [releaseStorageBlock_null hr] at hg
    cases g <;> cases hg
  | ok r =>
    obtain ⟨g', hg', rfl⟩ := releaseStorageBlock_ok hr
    have hsame : g' = g := by
      rw [hg] at hg'
      cases g <;> cases g' <;> cases hg' <;> rfl
    rw [hsame]

theorem releaseStorageBlock_of_null {db : Db H} (hnull : (heldBlock cfg db fi n).hash = .null) :
    releaseStorageBlock cfg db fi n = .error .nullHash := by
  cases hr : releaseStorageBlock cfg db fi n with
  | error e => rw [releaseStorageBlock_error hr]
  | ok r =>
    obtain ⟨g, hg, -⟩ := releaseStorageBlock_ok hr
    rw [hnull] at hg
    cases g <;> cases hg

theorem releaseBlock_of_hash {g : Option H}
    (hg : (heldBlock cfg s.db fi n).hash = g.elim .empty .digest) :
    releaseBlock cfg s fi n = .ok
      (s.released fi.stIno n g (heldBlock cfg s.db fi n).storageBlockNum, fi.dropBlock n) := by
  unfold releaseBlock Store.released
  rw [releaseStorageBlock_of_hash hg]
  dsimp only
  split <;> rfl

theorem releaseBlock_of_null (hnull : (heldBlock cfg s.db fi n).hash = .null) :
    releaseBlock cfg s fi n = .error .nullHash := by
  unfold releaseBlock
  rw [releaseStorageBlock_of_null hnull]

/-- **A block is given up when it has a row**; at a hole the null pointer is followed. -/
theorem releaseBlock_knows (hzero : s.db.rowHash 0 = none) (huniq : s.db.HashUnique)
    (hk : fi.Knows s.db) (hin : ¬(n : ℤ) * cfg.dbBlockSize > fi.stSize) :
    (s.db.fileHash fi.stIno n = none ∧ releaseBlock cfg s fi n = .error .nullHash) ∨
      ∃ s' fi', (s.db.fileHash fi.stIno n).isSome ∧ releaseBlock cfg s fi n = .ok (s', fi') ∧
        s.Loses s' fi fi' [n] := by
  cases hk.held hin with
  | hole unmapped hash => exact .inl ⟨unmapped, releaseBlock_of_null hash⟩
  | block g mapped row hash =>
    refine .inr ⟨_, _, ?_, releaseBlock_of_hash (g := some g) hash, loses_released ?_⟩
    · rw [mapped]
      rfl
    · exact lowers_released hzero huniq mapped row
  | dangling g mapped absent hash num =>
    refine .inr ⟨_, _, ?_, releaseBlock_of_hash (g := none) hash, loses_released ?_⟩
    · rw [mapped]
      rfl
    · rw [num]
      exact lowers_released_dangling mapped absent

/-- **The loop gives the blocks up when all of them have rows.**  The induction is on the blocks,
from any state whose handle knows its file. -/
theorem releaseBlocks_knows {ns : List ℕ} (hzero : s.db.rowHash 0 = none)
    (huniq : s.db.HashUnique) (hk : fi.Knows s.db) (hnodup : ns.Nodup)
    (hin : ∀ n ∈ ns, ¬(n : ℤ) * cfg.dbBlockSize > fi.stSize) :
    ((∃ n ∈ ns, s.db.fileHash fi.stIno n = none) ∧
        releaseBlocks cfg s fi ns = .error .nullHash) ∨
      ∃ s' fi', (∀ n ∈ ns, (s.db.fileHash fi.stIno n).isSome) ∧
        releaseBlocks cfg s fi ns = .ok (s', fi') ∧ s.Loses s' fi fi' ns := by
  induction ns generalizing s fi with
  | nil => exact .inr ⟨s, fi, fun n hn => absurd hn List.not_mem_nil, rfl, .refl s fi⟩
  | cons n ns ih =>
    obtain ⟨hnot, hnodup⟩ := List.nodup_cons.mp hnodup
    rcases releaseBlock_knows hzero huniq hk (hin n (List.mem_cons_self ..)) with
      ⟨hnone, herr⟩ | ⟨s₁, fi₁, hsome, hok, hloses⟩
    · refine .inl ⟨⟨n, List.mem_cons_self .., hnone⟩, ?_⟩
      rw [releaseBlocks, herr]
    · have hrun : releaseBlocks cfg s fi (n :: ns) = releaseBlocks cfg s₁ fi₁ ns := by
        rw [releaseBlocks, hok]
      -- the other blocks of the list have the rows that they had
      have hsame : ∀ m ∈ ns, s₁.db.fileHash fi₁.stIno m = s.db.fileHash fi.stIno m := by
        intro m hm
        rw [hloses.rows, hloses.stIno, if_neg]
        rintro ⟨-, hmn⟩
        rw [List.mem_singleton.mp hmn] at hm
        exact hnot hm
      have huniq₁ : s₁.db.HashUnique := by
        intro k k' g hk hk'
        rw [hloses.lowers.hashes] at hk hk'
        exact huniq k k' g hk hk'
      rw [hrun]
      rcases ih ((hloses.lowers.hashes 0).trans hzero) huniq₁ (hloses.knows hk) hnodup
        (fun m hm => by rw [hloses.stSize]; exact hin m (List.mem_cons_of_mem _ hm)) with
        ⟨⟨m, hm, hnone⟩, herr⟩ | ⟨s₂, fi₂, hall, hok₂, hloses₂⟩
      · refine .inl ⟨⟨m, List.mem_cons_of_mem _ hm, ?_⟩, herr⟩
        rw [← hsame m hm]
        exact hnone
      · refine .inr ⟨s₂, fi₂, fun m hm => ?_, hok₂, hloses.cons hloses₂⟩
        rcases List.mem_cons.mp hm with rfl | hm
        · exact hsome
        · rw [← hsame m hm]
          exact hall m hm

end loop

/-! ### `truncate` -/

/-- The number of blocks that a size needs. -/
def ceilBlock (bits size : ℕ) : ℕ := (size + blockSize bits - 1) / blockSize bits

theorem endBlock_eq (bits size : ℕ) : endBlock bits size = ceilBlock bits size :=
  eq_of_forall_lt_iff fun _ => lt_endBlock_iff.trans lt_ceil_iff.symm

theorem ceilBlock_mono {size size' : ℕ} (h : size ≤ size') :
    ceilBlock bits size ≤ ceilBlock bits size' :=
  Nat.div_le_div_right (by omega)

/-- What a truncation to `n` has to do: the size is `n`, the rows of the file behind the new end
are gone with one count each, the handle forgets their blocks, and the rest is as it was. -/
structure Truncated (s s' : Store bits H) (fi fi' : FileInfo H) (n : ℕ) : Prop where
  size : fi'.stSize = n
  files : ∀ id, s'.db.files.find id =
    (s.db.files.find id).map fun row => if id = fi.stIno then { row with size := n } else row
  rows : ∀ f o, s'.db.fileHash f o =
    if f = fi.stIno ∧ ceilBlock bits n ≤ o then none else s.db.fileHash f o
  lowers : s.Lowers s'
  infos : ∀ o, ceilBlock bits n ≤ o → (s.db.fileHash fi.stIno o).isSome → fi'.blocks o = none

/-- `truncate` returns 0 and has done it. -/
def Store.TruncatesTo (cfg : Config bits H) (s : Store bits H) (fi : FileInfo H) (n : ℕ) : Prop :=
  ∃ s' fi', truncate cfg s fi n = .ok (s', fi', 0) ∧ Truncated s s' fi fi' n

section truncates

variable {cfg : Config bits H} {s : Store bits H} {fi : FileInfo H} {n : ℕ}

/-- The change of the size behind the loop. -/
theorem Store.Loses.truncated {s₁ : Store bits H} {fi₁ : FileInfo H} {ns : List ℕ}
    (h : s.Loses s₁ fi fi₁ ns)
    (hsize : ∃ row, s.db.files.find fi.stIno = some row ∧ row.size = fi.stSize)
    (hns : ∀ o, o ∈ ns → ceilBlock bits n ≤ o)
    (hrest : ∀ o, ceilBlock bits n ≤ o → o ∉ ns → s.db.fileHash fi.stIno o = none) :
    Truncated s (s₁.setDb (s₁.db.ftruncate fi₁ n).1) fi (s₁.db.ftruncate fi₁ n).2.1 n where
  size := stSize_ftruncate ..
  files id := by
    have hsize₁ : ∃ row, s₁.db.files.find fi₁.stIno = some row ∧ row.size = fi₁.stSize := by
      rw [h.files, h.stIno, h.stSize]
      exact hsize
    rw [Store.setDb_db, find_ftruncate hsize₁, h.files, h.stIno]
  rows f o := by
    rw [Store.setDb_db, fileHash_ftruncate, h.rows]
    by_cases hf : f = fi.stIno
    · by_cases ho : o ∈ ns
      · rw [if_pos ⟨hf, ho⟩, if_pos ⟨hf, hns o ho⟩]
      · rw [if_neg fun hh => ho hh.2]
        split
        · rename_i hlost
          rw [hf]
          exact hrest o hlost.2 ho
        · rfl
    · rw [if_neg fun hh => hf hh.1, if_neg fun hh => hf hh.1]
  lowers := by
    obtain ⟨files, hfiles⟩ := ftruncate_files s₁.db fi₁ n
    refine h.lowers.trans (.of_eq (fun k => ?_) (fun k => ?_) (fun k => ?_) fun g => ?_)
    · rw [Store.setDb_db, hfiles]
      rfl
    · rw [Store.setDb_db, hfiles]
      rfl
    · rfl
    · rw [Store.setDb_db, hfiles]
      rfl
  infos o ho hsome := by
    rw [blocks_ftruncate, h.blocks, if_pos]
    by_contra hnot
    rw [hrest o ho hnot] at hsome
    cases hsome

/-- The two ways of `truncate`. -/
theorem truncate_eq (n : ℕ) : truncate cfg s fi n =
    (releaseBlocks cfg s fi (List.range' (endBlock bits n)
      (endBlock bits fi.stSize - endBlock bits n))).map fun q =>
        (q.1.setDb (q.1.db.ftruncate q.2 n).1, (q.1.db.ftruncate q.2 n).2.1, 0) := by
  unfold truncate
  rw [if_neg (by omega)]
  by_cases hgrow : fi.stSize ≤ n
  · have hle : endBlock bits fi.stSize ≤ endBlock bits n := by
      rw [endBlock_eq, endBlock_eq]
      exact ceilBlock_mono hgrow
    rw [if_pos (by omega), Nat.sub_eq_zero_of_le hle, List.range'_zero, releaseBlocks]
    dsimp only
    rw [ftruncate_nonneg]
    rfl
  · have hne : fi.stSize ≠ 0 := by omega
    have hend : endBlock bits fi.stSize = ((fi.stSize - 1) >>> bits) + 1 := if_pos hne
    rw [if_neg (by omega), Int.toNat_natCast, if_pos hne, ← hend]
    dsimp only
    cases releaseBlocks cfg s fi (List.range' (endBlock bits n)
      (endBlock bits fi.stSize - endBlock bits n)) with
    | error e => rfl
    | ok q =>
      obtain ⟨s₁, fi₁⟩ := q
      dsimp only
      rw [ftruncate_nonneg]
      rfl

/-- The loop through a handle that knows its file: it stops at a hole, or gives up the blocks
behind the new end. -/
theorem truncateLoop_knows (hdb : cfg.dbBlockSize ≤ blockSize bits) (hco : Coherent cfg s)
    (hk : fi.Knows s.db) (n : ℕ) :
    ((∃ o, ceilBlock bits n ≤ o ∧ o < ceilBlock bits fi.stSize ∧
        s.db.fileHash fi.stIno o = none) ∧ truncate cfg s fi n = .error .nullHash) ∨
      ∃ s₁ fi₁ ns, (∀ o, o ∈ ns ↔ ceilBlock bits n ≤ o ∧ o < ceilBlock bits fi.stSize) ∧
        (∀ o ∈ ns, (s.db.fileHash fi.stIno o).isSome) ∧ s.Loses s₁ fi fi₁ ns ∧
        truncate cfg s fi n =
          .ok (s₁.setDb (s₁.db.ftruncate fi₁ n).1, (s₁.db.ftruncate fi₁ n).2.1, 0) := by
  have hmem : ∀ o, o ∈ List.range' (endBlock bits n)
      (endBlock bits fi.stSize - endBlock bits n) ↔
      ceilBlock bits n ≤ o ∧ o < ceilBlock bits fi.stSize := by
    intro o
    rw [List.mem_range'_1, endBlock_eq, endBlock_eq]
    omega
  have hin : ∀ o ∈ List.range' (endBlock bits n) (endBlock bits fi.stSize - endBlock bits n),
      ¬(o : ℤ) * cfg.dbBlockSize > fi.stSize := by
    intro o ho
    exact not_past hdb (Nat.le_of_lt (lt_ceil_iff.mp ((hmem o).mp ho).2))
  rcases releaseBlocks_knows hco.zero hco.unique hk List.nodup_range' hin with
    ⟨⟨o, ho, hnone⟩, herr⟩ | ⟨s₁, fi₁, hall, hok, hloses⟩
  · obtain ⟨hge, hlt⟩ := (hmem o).mp ho
    refine .inl ⟨⟨o, hge, hlt, hnone⟩, ?_⟩
    rw [truncate_eq, herr]
    rfl
  · refine .inr ⟨s₁, fi₁, _, hmem, hall, hloses, ?_⟩
    rw [truncate_eq, hok]
    rfl

/-- The blocks between the new end and the old one have rows, and those behind both have none. -/
def Db.Covered (bits : ℕ) (db : Db H) (fi : FileInfo H) (n : ℕ) : Prop :=
  (∀ o, ceilBlock bits n ≤ o → o < ceilBlock bits fi.stSize →
    (db.fileHash fi.stIno o).isSome) ∧
  ∀ o, max (ceilBlock bits n) (ceilBlock bits fi.stSize) ≤ o → db.fileHash fi.stIno o = none

/-- A truncation that returns and leaves no row behind the new end has met no hole, and there was
no row behind both ends. -/
theorem covered_of_truncate (hdb : cfg.dbBlockSize ≤ blockSize bits) (hco : Coherent cfg s)
    (hk : fi.Knows s.db) {s' : Store bits H} {fi' : FileInfo H} {r : ℤ}
    (hrun : truncate cfg s fi n = .ok (s', fi', r))
    (hrows : ∀ o, ceilBlock bits n ≤ o → s'.db.fileHash fi.stIno o = none) :
    s.db.Covered bits fi n := by
  rcases truncateLoop_knows hdb hco hk n with ⟨-, herr⟩ | ⟨s₁, fi₁, ns, hmem, hall, hloses, hok⟩
  · rw [herr] at hrun
    cases hrun
  · refine ⟨fun o ho ho' => hall o ((hmem o).mpr ⟨ho, ho'⟩), fun o ho => ?_⟩
    rw [hok] at hrun
    cases hrun
    have hrow := hrows o (by omega)
    rw [Store.setDb_db, fileHash_ftruncate, hloses.rows, if_neg fun hh => ?_] at hrow
    · exact hrow
    · have := (hmem o).mp hh.2
      omega

theorem truncatesTo_of_covered (hdb : cfg.dbBlockSize ≤ blockSize bits) (hco : Coherent cfg s)
    (hk : fi.Knows s.db) (h : s.db.Covered bits fi n) : s.TruncatesTo cfg fi n := by
  obtain ⟨hall, hnone⟩ := h
  rcases truncateLoop_knows hdb hco hk n with
    ⟨⟨o, hge, hlt, hno⟩, -⟩ | ⟨s₁, fi₁, ns, hmem, -, hloses, hok⟩
  · have hsome := hall o hge hlt
    rw [hno] at hsome
    cases hsome
  · refine ⟨_, _, hok, hloses.truncated hk.size (fun o ho => ((hmem o).mp ho).1) fun o ho hnot =>
      hnone o ?_⟩
    rw [hmem] at hnot
    omega

/-- **A truncation is exact if and only if it meets no hole** and no row lies behind both ends. -/
theorem truncatesTo_iff (hdb : cfg.dbBlockSize ≤ blockSize bits) (hco : Coherent cfg s)
    (hk : fi.Knows s.db) (n : ℕ) : s.TruncatesTo cfg fi n ↔ s.db.Covered bits fi n := by
  constructor
  · rintro ⟨s', fi', hrun, htr⟩
    refine covered_of_truncate hdb hco hk hrun fun o ho => ?_
    rw [htr.rows, if_pos ⟨rfl, ho⟩]
  · exact truncatesTo_of_covered hdb hco hk

end truncates

/-! ### `Unlink` -/

/-- What `Unlink` has to do: the row of the file and all its blocks are gone, with one count for
each block, and the rest is as it was. -/
structure Fs.Unlinked (fs fs' : Fs bits H) (ino : ℕ) : Prop where
  files : ∀ id, fs'.store.db.files.find id =
    if id = ino then none else fs.store.db.files.find id
  rows : ∀ f o, fs'.store.db.fileHash f o = if f = ino then none else fs.store.db.fileHash f o
  lowers : fs.store.Lowers fs'.store
  handles : fs'.handles = fs.handles

/-- `Unlink` returns 0 and has done it. -/
def Fs.Unlinks (cfg : Config bits H) (fs : Fs bits H) (path : Path) : Prop :=
  ∃ fs', fs.step cfg (.unlink path) = .ok (fs', .ret 0) ∧
    fs.Unlinked fs' (fs.store.db.getByPath path).stIno

section unlinks

variable {cfg : Config bits H} {fs : Fs bits H} {path : Path}

theorem ceilBlock_zero (bits : ℕ) : ceilBlock bits 0 = 0 :=
  Nat.div_eq_of_lt (by have := blockSize_pos bits; omega)

omit [DecidableEq H] in
/-- `remove` takes the row of the file. -/
theorem find_remove {db : Db H} (hok : db.FilesOk) {ino : ℕ} {row : FileRow}
    (hrow : db.files.find ino = some row) (id : ℕ) :
    (db.remove row.path).1.files.find id = if id = ino then none else db.files.find id := by
  show (db.files.delete fun r => r.path = row.path).find id = _
  rw [KeyedTable.find_delete]
  by_cases hid : id = ino
  · rw [hid, hrow, if_pos rfl]
    simp
  · rw [if_neg hid]
    cases hfind : db.files.find id with
    | none => rfl
    | some r =>
      have hpath : r.path ≠ row.path := by
        intro heq
        have hsame := hok.paths r (KeyedTable.mem_of_find hfind) row
          (KeyedTable.mem_of_find hrow) heq
        rw [← KeyedTable.key_of_find hfind, hsame] at hid
        exact hid (KeyedTable.key_of_find hrow)
      simp [hpath]

/-- **`Unlink` works if and only if the file has no hole** and no row behind its end. -/
theorem unlinks_iff (hdb : cfg.dbBlockSize ≤ blockSize bits) (hco : Coherent cfg fs.store)
    (hok : fs.store.db.FilesOk) (hino : (fs.store.db.getByPath path).stIno ≠ 0)
    (hdir : sIsdir (fs.store.db.getByPath path).stMode = false) :
    fs.Unlinks cfg path ↔ fs.store.db.Covered bits (fs.store.db.getByPath path) 0 := by
  have hk := FileInfo.Knows.getByPath hino
  have hstep : ∀ {s' fi'}, truncate cfg fs.store (fs.store.db.getByPath path) 0 = .ok (s', fi', 0) →
      fs.step cfg (.unlink path) =
        .ok ((fs.setStore s').setDb (s'.db.remove path).1, .ret 0) := by
    intro s' fi' hrun
    show fs.unlink cfg path = _
    unfold Fs.unlink
    rw [if_neg hino, if_neg (by rw [hdir]; decide), hrun]
    rfl
  constructor
  · rintro ⟨fs', hret, hun⟩
    rcases truncateLoop_knows hdb hco hk 0 with ⟨-, herr⟩ | ⟨s₁, fi₁, ns, -, -, -, hrun⟩
    · change fs.unlink cfg path = _ at hret
      unfold Fs.unlink at hret
      rw [if_neg hino, if_neg (by rw [hdir]; decide), Int.natCast_zero.symm, herr] at hret
      cases hret
    · rw [hstep hrun] at hret
      cases hret
      exact covered_of_truncate hdb hco hk hrun fun o _ => (hun.rows _ o).trans (if_pos rfl)
  · intro hcov
    obtain ⟨s', fi', hrun, htr⟩ := truncatesTo_of_covered hdb hco hk hcov
    have hok' : s'.db.FilesOk := by
      have hrun' := hrun
      rw [truncate_run] at hrun'
      cases hq : run (roundStep cfg) (fs.store, fs.store.db.getByPath path)
          (truncateRounds bits (fs.store.db.getByPath path) 0) with
      | error e =>
        rw [hq] at hrun'
        cases hrun'
      | ok q =>
        rw [hq] at hrun'
        cases hrun'
        exact run_filesOk hok hq
    obtain ⟨row, hmem, hpath, hinfo⟩ := Db.getByPath_of_ne_zero hino
    have hid : (fs.store.db.getByPath path).stIno = row.id := by
      rw [hinfo]
      rfl
    have hrow : s'.db.files.find row.id = some { row with size := 0 } := by
      rw [htr.files, KeyedTable.find_of_mem hmem, Option.map_some, hid, if_pos rfl]
    refine ⟨_, hstep hrun, fun id => ?_, fun f o => ?_, ?_, rfl⟩
    · have hremove := find_remove hok' hrow id
      dsimp only at hremove
      show (s'.db.remove path).1.files.find id = _
      rw [← hpath, hremove, htr.files, hpath, hid]
      by_cases hne : id = row.id
      · rw [if_pos hne, if_pos hne]
      · simp only [if_neg hne, Option.map_id']
    · show s'.db.fileHash f o = _
      rw [htr.rows, ceilBlock_zero]
      simp only [Nat.zero_le, and_true]
    · exact htr.lowers.trans (.of_eq (fun _ => rfl) (fun _ => rfl) (fun _ => rfl) fun _ => rfl)

end unlinks

/-! ### Every reachable state -/

/-- **Truncations are exact where there are no holes.**  In every reachable state, through every
handle that knows its file and to every size, `truncate` does exactly what it has to if and only
if each block between the new end and the old one has a row in `file_blocks` and none behind
both ends has.  `Unlink` works for exactly the files without a hole. -/
theorem truncate_exact_iff (cfg : Config bits H) (hdb : cfg.dbBlockSize ≤ blockSize bits)
    (fs : Fs bits H) (hreach : Reachable (Fs.step cfg) (Fs.init bits H) fs) :
    (∀ fi n, fi.Knows fs.store.db →
      (fs.store.TruncatesTo cfg fi n ↔ fs.store.db.Covered bits fi n)) ∧
    ∀ path, (fs.store.db.getByPath path).stIno ≠ 0 →
      sIsdir (fs.store.db.getByPath path).stMode = false →
      (fs.Unlinks cfg path ↔ fs.store.db.Covered bits (fs.store.db.getByPath path) 0) := by
  have hco := (Fs.reachable_coherent hreach).1
  refine ⟨fun fi n hk => truncatesTo_iff hdb hco hk n, fun path hino hdir => ?_⟩
  exact unlinks_iff hdb hco (Fs.reachable_filesOk hreach) hino hdir

/-- A file that was extended to one byte and never written, and its open handle. -/
def holeFile : Fs 0 (List UInt8) :=
  Fs.after (plainConfig 0) [.create ['/', 'f'] sIfreg, .ftruncate 0 1]

theorem holeFile_knows : (holeFile.store.db.getByPath ['/', 'f']).Knows holeFile.store.db :=
  .getByPath (by decide)

/-- Growing the file with the hole, and unlinking it. -/
theorem truncate_exact_iff_hole :
    (∀ n, holeFile.store.TruncatesTo (plainConfig 0) (holeFile.store.db.getByPath ['/', 'f']) n ↔
      holeFile.store.db.Covered 0 (holeFile.store.db.getByPath ['/', 'f']) n) ∧
    (holeFile.Unlinks (plainConfig 0) ['/', 'f'] ↔
      holeFile.store.db.Covered 0 (holeFile.store.db.getByPath ['/', 'f']) 0) :=
  ⟨fun n => (truncate_exact_iff (plainConfig 0) (le_refl _) holeFile
      (Fs.after_reachable _ _)).1 _ n holeFile_knows,
    (truncate_exact_iff (plainConfig 0) (le_refl _) holeFile (Fs.after_reachable _ _)).2 ['/', 'f']
      (by decide) (by decide)⟩

/-- **A hole cannot be cut off.**  Neither a truncation to 0 nor `Unlink` gets past the null
pointer that is the hash of the block. -/
theorem truncate_hole_crashes :
    (¬∀ (fs : Fs 0 (List UInt8)) (fi : FileInfo (List UInt8)) (n : ℕ),
      Reachable (Fs.step (plainConfig 0)) (Fs.init 0 (List UInt8)) fs → fi.Knows fs.store.db →
      fs.store.TruncatesTo (plainConfig 0) fi n) ∧
    holeFile.step (plainConfig 0) (.ftruncate 0 0) = .error .nullHash ∧
    holeFile.step (plainConfig 0) (.unlink ['/', 'f']) = .error .nullHash := by
  refine ⟨fun hall => ?_, rfl, rfl⟩
  obtain ⟨s', fi', hrun, -⟩ := hall holeFile _ 0 (Fs.after_reachable _ _) holeFile_knows
  cases hrun

end Wwdedup
