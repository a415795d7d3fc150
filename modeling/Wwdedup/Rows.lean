import Wwdedup.Database

/-!
# What the statements do to the rows

Four views of the tables carry all later arguments: the hash and the use count of the row `k`
of `block_hashes` (`rowHash`, `useOf`), the hash that `file_blocks` has for a block of a file
(`fileHash`), and the number of `file_blocks` rows with a hash (`refs`).  Each statement has one
lemma for each view that it changes; `replaceStorageBlock_cases` says which three things the
transaction can do, and the lemmas after it what that does to the views.
-/

namespace Wwdedup

variable {bits : ℕ} {H : Type} [DecidableEq H]

namespace Db

/-- The hash of the row `k` of `block_hashes`. -/
def rowHash (db : Db H) (k : ℕ) : Option H := (db.blockHashes.find k).map BlockHashRow.hash

/-- The use count of the row `k` of `block_hashes`. -/
def useOf (db : Db H) (k : ℕ) : Option ℤ := (db.blockHashes.find k).map BlockHashRow.useCount

/-- The hash that `file_blocks` has for a block of a file. -/
def fileHash (db : Db H) (fileId offset : ℕ) : Option H :=
  (db.fileBlocks.find (fileId, offset)).map FileBlockRow.hash

/-- The number of `file_blocks` rows with the hash. -/
def refs (db : Db H) (h : H) : ℕ := db.fileBlocks.count fun r => r.hash = h

/-- No two rows of `block_hashes` have the same hash.  (The table has no constraint that says
so.) -/
def HashUnique (db : Db H) : Prop :=
  ∀ k k' g, db.rowHash k = some g → db.rowHash k' = some g → k = k'

theorem selectBlockHash_some {db : Db H} {h : H} {r : BlockHashRow H}
    (hsel : db.selectBlockHash h = some r) :
    db.blockHashes.find r.id = some r ∧ r.hash = h := by
  refine ⟨KeyedTable.find_of_mem (List.mem_of_find?_eq_some hsel), ?_⟩
  simpa using List.find?_some hsel

theorem rowHash_of_select {db : Db H} {h : H} {r : BlockHashRow H}
    (hsel : db.selectBlockHash h = some r) : db.rowHash r.id = some h := by
  obtain ⟨hfind, rfl⟩ := selectBlockHash_some hsel
  rw [rowHash, hfind]
  rfl

theorem useOf_of_select {db : Db H} {h : H} {r : BlockHashRow H}
    (hsel : db.selectBlockHash h = some r) : db.useOf r.id = some r.useCount := by
  rw [useOf, (selectBlockHash_some hsel).1]
  rfl

theorem selectBlockHash_none {db : Db H} {h : H} (hsel : db.selectBlockHash h = none) (k : ℕ) :
    db.rowHash k ≠ some h := by
  intro hk
  rw [rowHash, Option.map_eq_some_iff] at hk
  obtain ⟨r, hr, rfl⟩ := hk
  have := List.find?_eq_none.mp hsel r (KeyedTable.mem_of_find hr)
  simp at this

theorem selectBlockHash_isSome {db : Db H} {h : H} {k : ℕ} (hk : db.rowHash k = some h) :
    (db.selectBlockHash h).isSome := by
  cases hsel : db.selectBlockHash h with
  | none => exact absurd hk (selectBlockHash_none hsel k)
  | some r => rfl

omit [DecidableEq H] in
theorem useOf_isSome (db : Db H) (k : ℕ) : (db.useOf k).isSome = (db.rowHash k).isSome := by
  simp [useOf, rowHash]

theorem refs_pos {db : Db H} {f o : ℕ} {h : H} (hf : db.fileHash f o = some h) :
    0 < db.refs h := by
  rw [fileHash, Option.map_eq_some_iff] at hf
  obtain ⟨r, hr, rfl⟩ := hf
  exact KeyedTable.count_pos hr (by simp)

theorem refs_eq_zero {db : Db H} {h : H} (hno : ∀ f o, db.fileHash f o ≠ some h) :
    db.refs h = 0 := by
  apply KeyedTable.count_eq_zero
  intro k r hr
  have hne := hno k.1 k.2
  rw [fileHash, hr] at hne
  simpa using hne

theorem two_le_refs {db : Db H} {f o f' o' : ℕ} {h : H} (hf : db.fileHash f o = some h)
    (hf' : db.fileHash f' o' = some h) (hne : (f, o) ≠ (f', o')) : 2 ≤ db.refs h := by
  rw [fileHash, Option.map_eq_some_iff] at hf hf'
  obtain ⟨r, hr, hrh⟩ := hf
  obtain ⟨r', hr', hrh'⟩ := hf'
  exact KeyedTable.two_le_count hr (by simpa using hrh) hr' (by simpa using hrh') hne

/-! ### One statement -/

section statements

variable (db : Db H) (hash g : H) (f o f' o' id k size : ℕ) (c : ℤ)

section

omit [DecidableEq H]

@[simp] theorem rowHash_deleteFileBlock : (db.deleteFileBlock f o).rowHash k = db.rowHash k := rfl
@[simp] theorem useOf_deleteFileBlock : (db.deleteFileBlock f o).useOf k = db.useOf k := rfl
@[simp] theorem rowHash_replaceFileBlock :
    (db.replaceFileBlock f o hash).rowHash k = db.rowHash k := rfl
@[simp] theorem useOf_replaceFileBlock :
    (db.replaceFileBlock f o hash).useOf k = db.useOf k := rfl

end

@[simp] theorem fileHash_decreaseUseCount :
    (db.decreaseUseCount hash).fileHash f o = db.fileHash f o := rfl
@[simp] theorem fileHash_increaseUseCount :
    (db.increaseUseCount hash).fileHash f o = db.fileHash f o := rfl
section

omit [DecidableEq H]

@[simp] theorem fileHash_setUseCount : (db.setUseCount c id).fileHash f o = db.fileHash f o := rfl
@[simp] theorem fileHash_updateBlockHash :
    (db.updateBlockHash hash id).fileHash f o = db.fileHash f o := rfl
@[simp] theorem fileHash_insertBlockHash :
    (db.insertBlockHash hash).fileHash f o = db.fileHash f o := rfl

end

@[simp] theorem refs_decreaseUseCount : (db.decreaseUseCount hash).refs g = db.refs g := rfl
@[simp] theorem refs_increaseUseCount : (db.increaseUseCount hash).refs g = db.refs g := rfl
@[simp] theorem refs_setUseCount : (db.setUseCount c id).refs g = db.refs g := rfl
@[simp] theorem refs_updateBlockHash : (db.updateBlockHash hash id).refs g = db.refs g := rfl
@[simp] theorem refs_insertBlockHash : (db.insertBlockHash hash).refs g = db.refs g := rfl

section

omit [DecidableEq H]

@[simp] theorem rowHash_updateFileSize : (db.updateFileSize size id).rowHash k = db.rowHash k := rfl
@[simp] theorem useOf_updateFileSize : (db.updateFileSize size id).useOf k = db.useOf k := rfl
@[simp] theorem fileHash_updateFileSize :
    (db.updateFileSize size id).fileHash f o = db.fileHash f o := rfl
end

@[simp] theorem refs_updateFileSize : (db.updateFileSize size id).refs g = db.refs g := rfl

@[simp] theorem rowHash_decreaseUseCount :
    (db.decreaseUseCount hash).rowHash k = db.rowHash k := by
  rw [rowHash, rowHash, decreaseUseCount, KeyedTable.find_modify, Option.map_map]
  congr 1
  funext r
  by_cases h : r.hash = hash <;> simp [h]

@[simp] theorem rowHash_increaseUseCount :
    (db.increaseUseCount hash).rowHash k = db.rowHash k := by
  rw [rowHash, rowHash, increaseUseCount, KeyedTable.find_modify, Option.map_map]
  congr 1
  funext r
  by_cases h : r.hash = hash <;> simp [h]

section

omit [DecidableEq H]

@[simp] theorem rowHash_setUseCount : (db.setUseCount c id).rowHash k = db.rowHash k := by
  rw [rowHash, rowHash, setUseCount, KeyedTable.find_modify, Option.map_map]
  congr 1
  funext r
  by_cases h : r.id = id <;> simp [h]

theorem rowHash_updateBlockHash :
    (db.updateBlockHash hash id).rowHash k =
      if k = id then (db.rowHash k).map fun _ => hash else db.rowHash k := by
  rw [rowHash, rowHash, updateBlockHash, KeyedTable.find_modify]
  cases hk : db.blockHashes.find k with
  | none => simp
  | some r =>
    have := KeyedTable.key_of_find hk
    by_cases h : k = id <;> simp [h, this]

theorem rowHash_insertBlockHash :
    (db.insertBlockHash hash).rowHash k =
      if k = db.blockHashes.nextId then some hash else db.rowHash k := by
  rw [rowHash, rowHash, insertBlockHash, KeyedTable.find_insert]
  split <;> rfl

end

theorem useOf_decreaseUseCount :
    (db.decreaseUseCount hash).useOf k =
      if db.rowHash k = some hash then (db.useOf k).map (· - 1) else db.useOf k := by
  rw [useOf, useOf, rowHash, decreaseUseCount, KeyedTable.find_modify]
  cases hk : db.blockHashes.find k with
  | none => simp
  | some r => by_cases h : r.hash = hash <;> simp [h]

theorem useOf_increaseUseCount :
    (db.increaseUseCount hash).useOf k =
      if db.rowHash k = some hash then (db.useOf k).map (· + 1) else db.useOf k := by
  rw [useOf, useOf, rowHash, increaseUseCount, KeyedTable.find_modify]
  cases hk : db.blockHashes.find k with
  | none => simp
  | some r => by_cases h : r.hash = hash <;> simp [h]

section

omit [DecidableEq H]

theorem useOf_setUseCount :
    (db.setUseCount c id).useOf k =
      if k = id then (db.useOf k).map fun _ => c else db.useOf k := by
  rw [useOf, useOf, setUseCount, KeyedTable.find_modify]
  cases hk : db.blockHashes.find k with
  | none => simp
  | some r =>
    have := KeyedTable.key_of_find hk
    by_cases h : k = id <;> simp [h, this]

@[simp] theorem useOf_updateBlockHash : (db.updateBlockHash hash id).useOf k = db.useOf k := by
  rw [useOf, useOf, updateBlockHash, KeyedTable.find_modify, Option.map_map]
  congr 1
  funext r
  by_cases h : r.id = id <;> simp [h]

theorem useOf_insertBlockHash :
    (db.insertBlockHash hash).useOf k =
      if k = db.blockHashes.nextId then some 1 else db.useOf k := by
  rw [useOf, useOf, insertBlockHash, KeyedTable.find_insert]
  split <;> rfl

theorem fileHash_replaceFileBlock :
    (db.replaceFileBlock f o hash).fileHash f' o' =
      if (f', o') = (f, o) then some hash else db.fileHash f' o' := by
  rw [fileHash, fileHash, replaceFileBlock, KeyedTable.find_replace]
  show (if (f', o') = (f, o) then _ else _ : Option _).map _ = _
  split <;> rfl

theorem fileHash_deleteFileBlock :
    (db.deleteFileBlock f o).fileHash f' o' =
      if (f', o') = (f, o) then none else db.fileHash f' o' := by
  rw [fileHash, fileHash, deleteFileBlock, KeyedTable.find_deleteKey]
  split <;> rfl

end

theorem any_hash_iff :
    (db.fileBlocks.find (f, o)).any (fun r => r.hash = g) = true ↔ db.fileHash f o = some g := by
  rw [fileHash]
  cases db.fileBlocks.find (f, o) <;> simp

/-- Replacing a row of `file_blocks` takes one reference from the old hash and gives one to the
new hash. -/
theorem refs_replaceFileBlock :
    (db.replaceFileBlock f o hash).refs g + (if db.fileHash f o = some g then 1 else 0) =
      db.refs g + (if hash = g then 1 else 0) := by
  have h := KeyedTable.count_replace db.fileBlocks (fun r => r.hash = g) ⟨f, o, hash⟩
  simp only [FileBlockRow.key, any_hash_iff, decide_eq_true_eq] at h
  exact h

theorem refs_deleteFileBlock :
    (db.deleteFileBlock f o).refs g + (if db.fileHash f o = some g then 1 else 0) = db.refs g := by
  have h := KeyedTable.count_deleteKey db.fileBlocks (fun r => r.hash = g) (f, o)
  simp only [any_hash_iff] at h
  exact h

end statements

omit [DecidableEq H] in
/-- A `file_info` that was just made knows no block. -/
theorem getByPath_blocks (db : Db H) (path : Path) (n : ℕ) :
    (db.getByPath path).blocks n = none := by
  unfold getByPath getByPathIn
  split <;> rfl

omit [DecidableEq H] in
theorem rowHash_nextId (db : Db H) : db.rowHash db.blockHashes.nextId = none := by
  rw [rowHash, KeyedTable.find_nextId]
  rfl

end Db

end Wwdedup
