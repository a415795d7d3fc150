import Wwdedup.Rows

/-!
# What the two transactions do

`replaceStorageBlock` does one of three things, the constructors of `Replaces`: the hash is
already there (`hit`), the locked block has no other user and its row takes the hash (`inPlace`),
or a row is inserted (`fresh`).  The lemmas after it say once and for all three cases what the
transaction does to the views of `Rows`.
-/

namespace Wwdedup

variable {bits : ℕ} {H : Type} [DecidableEq H]

namespace Db

/-! ### The end of the transaction -/

section mapFileBlock

variable (db : Db H) (f o f' o' k : ℕ) (hash g : H) (sblock : Option (StorageBlock bits H))

omit [DecidableEq H] in
@[simp] theorem rowHash_mapFileBlock :
    (db.mapFileBlock f o hash sblock).rowHash k = db.rowHash k := by
  cases sblock <;> simp [mapFileBlock]

omit [DecidableEq H] in
theorem fileHash_mapFileBlock :
    (db.mapFileBlock f o hash sblock).fileHash f' o' =
      if (f', o') = (f, o) then some hash else db.fileHash f' o' := by
  rw [← fileHash_replaceFileBlock]
  cases sblock <;> rfl

/-- The file block gives up its old hash and takes the new one. -/
theorem refs_mapFileBlock :
    (db.mapFileBlock f o hash sblock).refs g + (if db.fileHash f o = some g then 1 else 0) =
      db.refs g + (if hash = g then 1 else 0) := by
  rw [← refs_replaceFileBlock db hash g f o]
  cases sblock <;> rfl

section

omit [DecidableEq H]

theorem useOf_mapFileBlock_none :
    (db.mapFileBlock f o hash (none : Option (StorageBlock bits H))).useOf k = db.useOf k := rfl

theorem useOf_mapFileBlock_some (b : StorageBlock bits H) :
    (db.mapFileBlock f o hash (some b)).useOf k =
      if k = b.storageBlockNum then (db.useOf k).map fun _ => b.useCount else db.useOf k := by
  rw [mapFileBlock, Option.map_some, Option.getD_some, useOf_setUseCount,
    useOf_replaceFileBlock]

@[simp] theorem files_mapFileBlock : (db.mapFileBlock f o hash sblock).files = db.files := by
  cases sblock <;> rfl

end

end mapFileBlock

end Db

/-! ### The three outcomes -/

/-- The three outcomes of `replaceStorageBlock`. -/
inductive Replaces (db : Db H) (ino : ℕ) (fblock : BlockInfo H)
    (sblock : Option (StorageBlock bits H)) (hash : H) : Replaced bits H → Prop
  | hit (row : BlockHashRow H) (sel : db.selectBlockHash hash = some row) :
      Replaces db ino fblock sblock hash
        { db := (db.increaseUseCount hash).mapFileBlock ino fblock.fileBlockNum hash
            (sblock.map StorageBlock.release)
          fblock := { fblock with
            hash := .digest hash, storageBlockNum := row.id, storageBlock := none }
          sblock := sblock.map StorageBlock.release
          present := true }
  | inPlace (b : StorageBlock bits H) (locked : sblock = some b) (one : b.useCount = 1)
      (sel : db.selectBlockHash hash = none) :
      Replaces db ino fblock sblock hash
        { db := (db.updateBlockHash hash b.storageBlockNum).mapFileBlock ino
            fblock.fileBlockNum hash (some b)
          fblock := { fblock with hash := .digest hash }
          sblock := some b
          present := false }
  | fresh (shared : ∀ b, sblock = some b → b.useCount ≠ 1)
      (sel : db.selectBlockHash hash = none) :
      Replaces db ino fblock sblock hash
        { db := (db.insertBlockHash hash).mapFileBlock ino fblock.fileBlockNum hash
            (sblock.map StorageBlock.release)
          fblock := { fblock with
            hash := .digest hash, storageBlockNum := db.blockHashes.nextId, storageBlock := none }
          sblock := sblock.map StorageBlock.release
          present := false }

/-- **The transaction does one of the three.** -/
theorem replaceStorageBlock_replaces (db : Db H) (ino : ℕ) (fblock : BlockInfo H)
    (sblock : Option (StorageBlock bits H)) (hash : H) :
    Replaces db ino fblock sblock hash (replaceStorageBlock db ino fblock sblock hash) := by
  unfold replaceStorageBlock
  cases hsel : db.selectBlockHash hash with
  | some row => exact .hit row hsel
  | none =>
    cases hone : sblock.filter fun b => decide (b.useCount = 1) with
    | some b =>
      obtain ⟨rfl, hb⟩ := Option.filter_eq_some_iff.mp hone
      exact .inPlace b rfl (by simpa using hb) hsel
    | none =>
      have hshared : ∀ b, sblock = some b → b.useCount ≠ 1 := by
        rintro b rfl
        simpa using Option.filter_eq_none_iff.mp hone b rfl
      exact .fresh hshared hsel

namespace Replaces

variable {db : Db H} {ino : ℕ} {fblock : BlockInfo H} {sblock : Option (StorageBlock bits H)}
variable {hash : H} {r : Replaced bits H}

theorem fblock_eq (h : Replaces db ino fblock sblock hash r) :
    r.fblock.fileBlockNum = fblock.fileBlockNum ∧ r.fblock.hash = .digest hash ∧
      r.fblock.loaded = fblock.loaded ∧ r.fblock.empty = fblock.empty := by
  cases h <;> exact ⟨rfl, rfl, rfl, rfl⟩

theorem files_eq (h : Replaces db ino fblock sblock hash r) : r.db.files = db.files := by
  cases h <;> exact Db.files_mapFileBlock ..

/-- The file block has the hash, and no other file block has changed. -/
theorem fileHash_eq (h : Replaces db ino fblock sblock hash r) (f o : ℕ) :
    r.db.fileHash f o =
      if (f, o) = (ino, fblock.fileBlockNum) then some hash else db.fileHash f o := by
  cases h <;> simp only [Db.fileHash_mapFileBlock, Db.fileHash_increaseUseCount,
    Db.fileHash_updateBlockHash, Db.fileHash_insertBlockHash]

theorem refs_eq (h : Replaces db ino fblock sblock hash r) (g : H) :
    r.db.refs g + (if db.fileHash ino fblock.fileBlockNum = some g then 1 else 0) =
      db.refs g + (if hash = g then 1 else 0) := by
  cases h with
  | hit row sel => exact Db.refs_mapFileBlock (db.increaseUseCount hash) ..
  | inPlace b locked one sel =>
    exact Db.refs_mapFileBlock (db.updateBlockHash hash b.storageBlockNum) ..
  | fresh shared sel => exact Db.refs_mapFileBlock (db.insertBlockHash hash) ..

/-- The locked block comes back with the same number, stamp and data. -/
theorem sblock_eq (h : Replaces db ino fblock sblock hash r) :
    r.sblock = sblock ∨ r.sblock = sblock.map StorageBlock.release := by
  cases h with
  | hit row sel => exact .inr rfl
  | inPlace b locked one sel => exact .inl locked.symm
  | fresh shared sel => exact .inr rfl

/-- What the in-place branch relies on: the locked block is the one whose number the
`block_info` holds, and it has a row. -/
def Backed (db : Db H) (fblock : BlockInfo H) (sblock : Option (StorageBlock bits H)) : Prop :=
  ∀ b, sblock = some b → b.storageBlockNum = fblock.storageBlockNum ∧
    (b.useCount = 1 → (db.rowHash b.storageBlockNum).isSome)

/-- Afterwards the block that the file block is mapped to has the hash. -/
theorem rowHash_self (h : Replaces db ino fblock sblock hash r)
    (hb : Backed db fblock sblock) : r.db.rowHash r.fblock.storageBlockNum = some hash := by
  cases h with
  | hit row sel => simpa using Db.rowHash_of_select sel
  | inPlace b locked one sel =>
    obtain ⟨hnum, hrow⟩ := hb b locked
    obtain ⟨g, hg⟩ := Option.isSome_iff_exists.mp (hrow one)
    simp only [Db.rowHash_mapFileBlock, Db.rowHash_updateBlockHash, ← hnum, if_true, hg,
      Option.map_some]
  | fresh shared sel => simp only [Db.rowHash_mapFileBlock, Db.rowHash_insertBlockHash, if_true]

/-- No other row changes its hash. -/
theorem rowHash_of_ne (h : Replaces db ino fblock sblock hash r)
    (hb : Backed db fblock sblock) {k : ℕ} (hk : k ≠ r.fblock.storageBlockNum) :
    r.db.rowHash k = db.rowHash k := by
  cases h with
  | hit row sel => simp
  | inPlace b locked one sel =>
    have hne : k ≠ b.storageBlockNum := by
      rw [(hb b locked).1]
      exact hk
    simp only [Db.rowHash_mapFileBlock, Db.rowHash_updateBlockHash, if_neg hne]
  | fresh shared sel =>
    simp only [Db.rowHash_mapFileBlock, Db.rowHash_insertBlockHash, if_neg hk]

theorem rowHash_hit (h : Replaces db ino fblock sblock hash r) (hp : r.present = true) (k : ℕ) :
    r.db.rowHash k = db.rowHash k := by
  cases h with
  | hit row sel => simp
  | inPlace b locked one sel => cases hp
  | fresh shared sel => cases hp

theorem new_of_absent (h : Replaces db ino fblock sblock hash r) (hp : r.present = false)
    (k : ℕ) : db.rowHash k ≠ some hash := by
  cases h with
  | hit row sel => cases hp
  | inPlace b locked one sel => exact Db.selectBlockHash_none sel k
  | fresh shared sel => exact Db.selectBlockHash_none sel k

theorem found_of_present (h : Replaces db ino fblock sblock hash r) (hp : r.present = true) :
    ∃ k, db.rowHash k = some hash := by
  cases h with
  | hit row sel => exact ⟨_, Db.rowHash_of_select sel⟩
  | inPlace b locked one sel => cases hp
  | fresh shared sel => cases hp

/-- Unless the hash was found, one row is new or takes the hash, and one that was there is that
of the block that was mapped. -/
theorem rowHash_absent (h : Replaces db ino fblock sblock hash r) (hb : Backed db fblock sblock)
    (hp : r.present = false) : ∃ k, (∀ k', r.db.rowHash k' ≠ db.rowHash k' ↔ k' = k) ∧
      ((db.rowHash k).isSome → k = fblock.storageBlockNum) := by
  refine ⟨r.fblock.storageBlockNum, fun k' => ⟨fun hne => ?_, ?_⟩, fun hsome => ?_⟩
  · by_contra hk
    exact hne (h.rowHash_of_ne hb hk)
  · rintro rfl
    rw [h.rowHash_self hb]
    exact (h.new_of_absent hp _).symm
  · cases h with
    | hit row sel => cases hp
    | inPlace b locked one sel => rfl
    | fresh shared sel =>
      rw [Db.rowHash_nextId] at hsome
      cases hsome

/-- The counts of the other rows stay. -/
theorem useOf_of_ne (h : Replaces db ino fblock sblock hash r) (hu : db.HashUnique)
    (hb : Backed db fblock sblock) (k : ℕ) (hold : k ≠ fblock.storageBlockNum)
    (hnew : k ≠ r.fblock.storageBlockNum) : r.db.useOf k = db.useOf k := by
  -- the end of the transaction sets the count of the locked block
  have hmap : ∀ (db' : Db H) (sblock' : Option (StorageBlock bits H)),
      (∀ b, sblock' = some b → b.storageBlockNum = fblock.storageBlockNum) →
      (db'.mapFileBlock ino fblock.fileBlockNum hash sblock').useOf k = db'.useOf k := by
    intro db' sblock' hnum
    cases sblock' with
    | none => rfl
    | some b => rw [Db.useOf_mapFileBlock_some, hnum b rfl, if_neg hold]
  have hrel : ∀ b, sblock.map StorageBlock.release = some b →
      b.storageBlockNum = fblock.storageBlockNum := by
    intro b hs
    obtain ⟨b', hb', rfl⟩ := Option.map_eq_some_iff.mp hs
    exact (hb b' hb').1
  cases h with
  | hit row sel =>
    rw [hmap _ _ hrel, Db.useOf_increaseUseCount, if_neg]
    intro hk
    exact hnew (hu _ _ _ hk (Db.rowHash_of_select sel))
  | inPlace b locked one sel =>
    rw [hmap _ _ fun b' hb' => by cases hb'; exact (hb b locked).1, Db.useOf_updateBlockHash]
  | fresh shared sel => rw [hmap _ _ hrel, Db.useOf_insertBlockHash, if_neg hnew]

/-- A row that has the new hash already is the one that the file block is mapped to. -/
theorem num_of_rowHash (h : Replaces db ino fblock sblock hash r) (hu : db.HashUnique) {k : ℕ}
    (hk : db.rowHash k = some hash) : k = r.fblock.storageBlockNum := by
  cases h with
  | hit row sel => exact hu _ _ _ hk (Db.rowHash_of_select sel)
  | inPlace b locked one sel => exact absurd hk (Db.selectBlockHash_none sel k)
  | fresh shared sel => exact absurd hk (Db.selectBlockHash_none sel k)

/-- At most one row changes its hash, and only to a hash that no row has. -/
theorem rowHash_cases (h : Replaces db ino fblock sblock hash r) :
    (∀ k, r.db.rowHash k = db.rowHash k) ∨
      (∀ k, db.rowHash k ≠ some hash) ∧ ∃ n, ∀ k, k ≠ n → r.db.rowHash k = db.rowHash k := by
  cases h with
  | hit row sel => exact .inl fun k => by simp
  | inPlace b locked one sel =>
    refine .inr ⟨Db.selectBlockHash_none sel, b.storageBlockNum, fun k hk => ?_⟩
    simp only [Db.rowHash_mapFileBlock, Db.rowHash_updateBlockHash, if_neg hk]
  | fresh shared sel =>
    refine .inr ⟨Db.selectBlockHash_none sel, db.blockHashes.nextId, fun k hk => ?_⟩
    simp only [Db.rowHash_mapFileBlock, Db.rowHash_insertBlockHash, if_neg hk]

/-- A row with another hash than the new one had it before. -/
theorem rowHash_old (h : Replaces db ino fblock sblock hash r) {k : ℕ} {g : H} (hg : g ≠ hash)
    (hk : r.db.rowHash k = some g) : db.rowHash k = some g := by
  cases h with
  | hit row sel => simpa using hk
  | inPlace b locked one sel =>
    simp only [Db.rowHash_mapFileBlock, Db.rowHash_updateBlockHash] at hk
    split at hk
    · cases hrow : db.rowHash k with
      | none =>
        rw [hrow] at hk
        cases hk
      | some g' =>
        rw [hrow] at hk
        exact absurd (Option.some.inj hk).symm hg
    · exact hk
  | fresh shared sel =>
    simp only [Db.rowHash_mapFileBlock, Db.rowHash_insertBlockHash] at hk
    split at hk
    · exact absurd (Option.some.inj hk).symm hg
    · exact hk

/-- **A hash is given to a row only when no row has it**, whatever block is locked. -/
theorem hashUnique (h : Replaces db ino fblock sblock hash r) (hu : db.HashUnique) :
    r.db.HashUnique := by
  intro k k' g hk hk'
  by_cases hg : g = hash
  · rcases h.rowHash_cases with hsame | ⟨hnew, n, hn⟩
    · rw [hsame] at hk hk'
      exact hu _ _ _ hk hk'
    · -- only the row that was changed can have the new hash
      have hat : ∀ {k}, r.db.rowHash k = some g → k = n := by
        intro k hk
        by_contra hne
        rw [hn k hne, hg] at hk
        exact hnew k hk
      rw [hat hk, hat hk']
  · exact hu _ _ _ (h.rowHash_old hg hk) (h.rowHash_old hg hk')

/-- A row is never taken away. -/
theorem rowHash_isSome (h : Replaces db ino fblock sblock hash r)
    (hb : Backed db fblock sblock) {k : ℕ} (hk : (db.rowHash k).isSome) :
    (r.db.rowHash k).isSome := by
  by_cases hn : k = r.fblock.storageBlockNum
  · rw [hn, h.rowHash_self hb]
    rfl
  · rw [h.rowHash_of_ne hb hn]
    exact hk

theorem num_ne_zero (h : Replaces db ino fblock sblock hash r) (hb : Backed db fblock sblock)
    (hz : db.rowHash 0 = none) : r.fblock.storageBlockNum ≠ 0 := by
  intro h0
  cases h with
  | hit row sel =>
    have hrow := Db.rowHash_of_select sel
    rw [show row.id = 0 from h0, hz] at hrow
    cases hrow
  | inPlace b locked one sel =>
    obtain ⟨hnum, hrow⟩ := hb b locked
    have hb0 : b.storageBlockNum = 0 := hnum.trans h0
    have := hrow one
    rw [hb0, hz] at this
    cases this
  | fresh shared sel => exact KeyedTable.nextId_pos _ h0

end Replaces

/-! ### Loading the block of a file -/

/-- The four outcomes of `loadFileBlock` on a new `block_info`. -/
inductive Loads (cfg : Config bits H) (db : Db H) (fi : FileInfo H) (n : ℕ) :
    BlockInfo H × ℤ → Prop
  | skipped (past : (n : ℤ) * cfg.dbBlockSize > fi.stSize) :
      Loads cfg db fi n (.new n, 0)
  | absent (unmapped : db.fileHash fi.stIno n = none) : Loads cfg db fi n (.new n, 0)
  | dangling (g : H) (mapped : db.fileHash fi.stIno n = some g)
      (sel : db.selectBlockHash g = none) (inside : ¬(n : ℤ) * cfg.dbBlockSize > fi.stSize) :
      Loads cfg db fi n ({ BlockInfo.new n with empty := false, hash := .empty }, 0)
  | found (row : BlockHashRow H) (mapped : db.fileHash fi.stIno n = some row.hash)
      (sel : db.selectBlockHash row.hash = some row)
      (inside : ¬(n : ℤ) * cfg.dbBlockSize > fi.stSize) :
      Loads cfg db fi n
        ({ BlockInfo.new n with
            empty := false, storageBlockNum := row.id, hash := .digest row.hash },
          row.useCount)

theorem loadFileBlock_loads (cfg : Config bits H) (db : Db H) (fi : FileInfo H) (n : ℕ) :
    Loads cfg db fi n (loadFileBlock cfg db fi (.new n)) := by
  unfold loadFileBlock
  split
  · rename_i hpast
    exact .skipped hpast
  · rename_i hinside
    have hnum : (BlockInfo.new n : BlockInfo H).fileBlockNum = n := rfl
    rw [hnum, Db.getFileBlock]
    have hmap : db.fileHash fi.stIno n =
        (db.fileBlocks.find (fi.stIno, n)).map FileBlockRow.hash := rfl
    cases hfind : db.fileBlocks.find (fi.stIno, n) with
    | none =>
      rw [hfind] at hmap
      exact .absent hmap
    | some row =>
      rw [hfind, Option.map_some] at hmap
      rw [Option.map_some]
      cases hsel : db.selectBlockHash row.hash with
      | none => exact .dangling row.hash hmap hsel hinside
      | some b =>
        rw [← (Db.selectBlockHash_some hsel).2] at hmap hsel
        exact .found b hmap hsel hinside

end Wwdedup
