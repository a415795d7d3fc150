import Wwdedup.Coherence

/-!
# The table `block_hashes`

`replaceStorageBlock` and `releaseStorageBlock` as transactions: lists of statements, each of
which may fail, and then all of them are rolled back.  Whatever the connections know about the
blocks, no two rows get the same hash, because a hash is given to one row and only when the
SELECT found no row with it; and no row is taken away.  With the `block_info` that
`_getLockedFileBlock` returns, `replaceStorageBlock` maps the file block to the hash and changes
nothing else.
-/

namespace Wwdedup

open GuardedRun

variable {bits : ℕ} {H : Type} [DecidableEq H]

/-! ### Statements and rollbacks -/

/-- The statements that `replaceStorageBlock` executes after its SELECT. -/
def replaceStatements (db : Db H) (ino : ℕ) (fblock : BlockInfo H)
    (sblock : Option (StorageBlock bits H)) (hash : H) : List (Db H → Db H) :=
  let mapping (sblock : Option (StorageBlock bits H)) : List (Db H → Db H) :=
    (fun db => db.replaceFileBlock ino fblock.fileBlockNum hash) ::
      (sblock.map fun b => fun db : Db H => db.setUseCount b.useCount b.storageBlockNum).toList
  match db.selectBlockHash hash with
  | some _ => (fun db => db.increaseUseCount hash) :: mapping (sblock.map StorageBlock.release)
  | none =>
    match sblock.filter fun b => b.useCount = 1 with
    | some b => (fun db => db.updateBlockHash hash b.storageBlockNum) :: mapping sblock
    | none => (fun db => db.insertBlockHash hash) :: mapping (sblock.map StorageBlock.release)

/-- The statements of `releaseStorageBlock` after the block was looked up; the transaction that
follows a null pointer does not get to its end. -/
def releaseStatements (cfg : Config bits H) (db : Db H) (fi : FileInfo H) (fileBlockNum : ℕ) :
    Option (List (Db H → Db H)) :=
  match (heldBlock cfg db fi fileBlockNum).hash with
  | .null => none
  | .empty => some [fun db => db.deleteFileBlock fi.stIno fileBlockNum]
  | .digest h =>
    some [fun db => db.deleteFileBlock fi.stIno fileBlockNum, fun db => db.decreaseUseCount h]

/-- A transaction that a connection executes, with what it knows about the blocks. -/
inductive Transaction (bits : ℕ) (H : Type) where
  | replace (ino : ℕ) (fblock : BlockInfo H) (sblock : Option (StorageBlock bits H)) (hash : H)
  | release (fi : FileInfo H) (fileBlockNum : ℕ)

def Transaction.statements (cfg : Config bits H) (db : Db H) :
    Transaction bits H → Option (List (Db H → Db H))
  | .replace ino fblock sblock hash => some (replaceStatements db ino fblock sblock hash)
  | .release fi fileBlockNum => releaseStatements cfg db fi fileBlockNum

/-- The tables at BEGIN, kept for a rollback, and the tables as the statements have made
them. -/
structure Pending (H : Type) where
  saved : Db H
  working : Db H

def Pending.begin (db : Db H) : Pending H := ⟨db, db⟩

def Pending.execute (t : Pending H) (statements : List (Db H → Db H)) : Pending H :=
  { t with working := statements.foldl (fun db statement => statement db) t.working }

def Pending.commit (t : Pending H) : Db H := t.working

def Pending.rollback (t : Pending H) : Db H := t.saved

/-- Execute a transaction: all of its statements and COMMIT, or as many as `failed` says, and
then the rollback. -/
def Transaction.execute (cfg : Config bits H) (db : Db H) (t : Transaction bits H)
    (failed : Option ℕ) : Db H :=
  match t.statements cfg db, failed with
  | none, _ => (Pending.begin db).rollback
  | some statements, none => ((Pending.begin db).execute statements).commit
  | some statements, some n => ((Pending.begin db).execute (statements.take n)).rollback

/-- The transactions of all connections, in the order of their locks. -/
def executeAll (cfg : Config bits H) (db : Db H) (ts : List (Transaction bits H × Option ℕ)) :
    Db H :=
  ts.foldl (fun db t => t.1.execute cfg db t.2) db

section transactions

variable {cfg : Config bits H} {db : Db H}

/-- The statements of `replaceStorageBlock` make the tables that it leaves. -/
theorem replaceStatements_execute (ino : ℕ) (fblock : BlockInfo H)
    (sblock : Option (StorageBlock bits H)) (hash : H) :
    ((Pending.begin db).execute (replaceStatements db ino fblock sblock hash)).commit =
      (replaceStorageBlock db ino fblock sblock hash).db := by
  unfold replaceStatements replaceStorageBlock
  cases db.selectBlockHash hash with
  | some row => cases sblock <;> rfl
  | none =>
    dsimp only
    cases sblock.filter fun b => decide (b.useCount = 1) with
    | some b => cases sblock <;> rfl
    | none => cases sblock <;> rfl

theorem releaseStatements_execute {fi fi' : FileInfo H} {n num : ℕ} {db' : Db H}
    (h : releaseStorageBlock cfg db fi n = .ok (db', fi', num)) :
    ∃ statements, releaseStatements cfg db fi n = some statements ∧
      ((Pending.begin db).execute statements).commit = db' := by
  unfold releaseStorageBlock at h
  change (match (heldBlock cfg db fi n).hash with
    | .null => .error .nullHash
    | .empty => .ok (db.deleteFileBlock fi.stIno n, fi.dropBlock n,
        (heldBlock cfg db fi n).storageBlockNum)
    | .digest g => .ok ((db.deleteFileBlock fi.stIno n).decreaseUseCount g, fi.dropBlock n,
        (heldBlock cfg db fi n).storageBlockNum) :
      Except Fault (Db H × FileInfo H × ℕ)) = _ at h
  unfold releaseStatements
  cases hash : (heldBlock cfg db fi n).hash with
  | null =>
    rw [hash] at h
    cases h
  | empty =>
    rw [hash] at h
    cases h
    exact ⟨_, rfl, rfl⟩
  | digest g =>
    rw [hash] at h
    cases h
    exact ⟨_, rfl, rfl⟩

variable (cfg db) in
/-- A transaction leaves the tables as they were, or does what the two methods do. -/
theorem Transaction.execute_cases (t : Transaction bits H) (failed : Option ℕ) :
    t.execute cfg db failed = db ∨
      (∃ ino fblock, ∃ sblock : Option (StorageBlock bits H), ∃ hash, t.execute cfg db failed =
        (replaceStorageBlock db ino fblock sblock hash).db) ∨
      ∃ ino n g, t.execute cfg db failed = db.released ino n g := by
  cases failed with
  | some n =>
    left
    unfold execute
    cases t.statements cfg db <;> rfl
  | none =>
    cases t with
    | replace ino fblock sblock hash =>
      right
      left
      exact ⟨ino, fblock, sblock, hash, replaceStatements_execute ino fblock sblock hash⟩
    | release fi n =>
      have hst : (Transaction.release fi n : Transaction bits H).statements cfg db =
        releaseStatements cfg db fi n := rfl
      unfold execute
      rw [hst]
      unfold releaseStatements
      cases hash : (heldBlock cfg db fi n).hash with
      | null => exact .inl rfl
      | empty => exact .inr (.inr ⟨fi.stIno, n, none, rfl⟩)
      | digest g => exact .inr (.inr ⟨fi.stIno, n, some g, rfl⟩)

/-- The numbers of the rows stay, in their order, and at most one is added. -/
theorem replaceStorageBlock_keys (ino : ℕ) (fblock : BlockInfo H)
    (sblock : Option (StorageBlock bits H)) (hash : H) :
    db.blockHashes.keys <+:
      (replaceStorageBlock db ino fblock sblock hash).db.blockHashes.keys := by
  have hmap : ∀ (db : Db H) (sblock : Option (StorageBlock bits H)),
      (db.mapFileBlock ino fblock.fileBlockNum hash sblock).blockHashes.keys =
        db.blockHashes.keys := by
    intro db sblock
    cases sblock with
    | none => rfl
    | some b =>
      show (db.replaceFileBlock ino fblock.fileBlockNum hash |>.setUseCount b.useCount
        b.storageBlockNum).blockHashes.keys = _
      rw [Db.setUseCount, KeyedTable.keys_modify]
      rfl
  have hr := replaceStorageBlock_replaces db ino fblock sblock hash
  generalize replaceStorageBlock db ino fblock sblock hash = r at hr ⊢
  cases hr with
  | hit row sel =>
    rw [hmap, Db.increaseUseCount, KeyedTable.keys_modify]
  | inPlace b locked one sel =>
    rw [hmap, Db.updateBlockHash, KeyedTable.keys_modify]
  | fresh shared sel =>
    rw [hmap]
    show db.blockHashes.rows.map BlockHashRow.id <+:
      (db.blockHashes.rows ++ [_]).map BlockHashRow.id
    rw [List.map_append]
    exact List.prefix_append _ _

variable (cfg) in
/-- **A transaction keeps the hashes unique and the rows in place.** -/
theorem Transaction.execute_unique (t : Transaction bits H) (failed : Option ℕ)
    (hu : db.HashUnique) : (t.execute cfg db failed).HashUnique ∧
      db.blockHashes.keys <+: (t.execute cfg db failed).blockHashes.keys := by
  rcases t.execute_cases cfg db failed with
    heq | ⟨ino, fblock, sblock, hash, heq⟩ | ⟨ino, n, g, heq⟩
  · rw [heq]
    exact ⟨hu, List.prefix_refl _⟩
  · rw [heq]
    exact ⟨(replaceStorageBlock_replaces ..).hashUnique hu, replaceStorageBlock_keys ..⟩
  · rw [heq]
    refine ⟨fun k k' h hk hk' => ?_, ?_⟩
    · rw [rowHash_released] at hk hk'
      exact hu k k' h hk hk'
    · cases g with
      | none => exact List.prefix_refl _
      | some g =>
        show _ <+: ((db.deleteFileBlock ino n).decreaseUseCount g).blockHashes.keys
        rw [Db.decreaseUseCount, KeyedTable.keys_modify]
        exact List.prefix_refl _

variable (cfg) in
/-- Runs of transactions keep the hashes unique and the rows in place. -/
theorem executeAll_unique (ts : List (Transaction bits H × Option ℕ)) (hu : db.HashUnique) :
    (executeAll cfg db ts).HashUnique ∧
      db.blockHashes.keys <+: (executeAll cfg db ts).blockHashes.keys := by
  induction ts generalizing db with
  | nil => exact ⟨hu, List.prefix_refl _⟩
  | cons t ts ih =>
    obtain ⟨hu₁, hkeys⟩ := t.1.execute_unique cfg t.2 hu
    obtain ⟨hu₂, hkeys'⟩ := ih hu₁
    exact ⟨hu₂, hkeys.trans hkeys'⟩

end transactions

/-- **The deduplication invariant**: after any transactions of any connections, each of which
may fail at any statement, no two rows of `block_hashes` have the same hash, and in all that
follows every row stays under its number. -/
theorem block_hashes_unique (cfg : Config bits H)
    (earlier later : List (Transaction bits H × Option ℕ)) :
    (∀ r ∈ (executeAll cfg .empty earlier).blockHashes.rows,
      ∀ r' ∈ (executeAll cfg .empty earlier).blockHashes.rows, r.hash = r'.hash → r = r') ∧
    (executeAll cfg .empty earlier).blockHashes.keys <+:
      (executeAll cfg .empty (earlier ++ later)).blockHashes.keys := by
  have hempty : (Db.empty : Db H).HashUnique := by
    intro k k' g hk
    cases hk
  have hu := (executeAll_unique cfg earlier hempty).1
  constructor
  · intro r hr r' hr' heq
    have hfind := KeyedTable.find_of_mem hr
    have hfind' := KeyedTable.find_of_mem hr'
    have hid : r.id = r'.id := by
      apply hu r.id r'.id r.hash
      · rw [Db.rowHash, hfind]
        rfl
      · rw [Db.rowHash, hfind', heq]
        rfl
    rw [hid, hfind'] at hfind
    exact (Option.some.inj hfind).symm
  · rw [executeAll, executeAll, List.foldl_append]
    exact (executeAll_unique cfg later hu).2

/-! ### The block of a file -/

/-- **`replaceStorageBlock` maps the block to the hash and changes nothing else**, in every
state that operations come to, with the `block_info` that `_getLockedFileBlock` returns. -/
theorem replaceStorageBlock_maps (cfg : Config bits H) (fs : Fs bits H)
    (hreach : Reachable (Fs.step cfg) (Fs.init bits H) fs) (fi fi' : FileInfo H)
    (hfi : (∃ fh, fs.handles fh = some fi) ∨ ∃ path, fi = fs.store.db.getByPath path)
    (rs : List Round) (s s' : Store bits H) (os : List (List UInt8))
    (hrun : run (roundStep cfg) (fs.store, fi) rs = .ok ((s, fi'), os)) (n : ℕ) (hash : H)
    (htouch : (getLockedFileBlock cfg s fi' n).store.Touches s') (r : Replaced bits H)
    (hr : r = replaceStorageBlock s'.db fi'.stIno (getLockedFileBlock cfg s fi' n).fblock
      (s'.lock (getLockedFileBlock cfg s fi' n).fblock.storageBlock) hash) :
    (r.db.fileHash fi'.stIno n = some hash ∧
      ∀ f o, (f, o) ≠ (fi'.stIno, n) → r.db.fileHash f o = s'.db.fileHash f o) ∧
    (∀ k, r.db.rowHash k = some hash ↔ k = r.fblock.storageBlockNum) ∧
    (r.present = true ↔ ∃ k, s'.db.rowHash k = some hash) ∧
    (r.present = true → ∀ k, r.db.rowHash k = s'.db.rowHash k) ∧
    (r.present = false → ∃ k, (∀ k', r.db.rowHash k' ≠ s'.db.rowHash k' ↔ k' = k) ∧
      ((s'.db.rowHash k).isSome →
        k = (getLockedFileBlock cfg s fi' n).fblock.storageBlockNum)) ∧
    ∀ k, k ≠ (getLockedFileBlock cfg s fi' n).fblock.storageBlockNum →
      k ≠ r.fblock.storageBlockNum → r.db.useOf k = s'.db.useOf k := by
  -- the store is coherent when the block is located, and the block_info is backed by it
  have hcoh := Fs.reachable_coherent hreach
  have hok : fi.Ok fs.store.db := by
    rcases hfi with ⟨fh, hfh⟩ | ⟨path, rfl⟩
    · exact hcoh.2 fh fi hfh
    · exact .getByPath _ path
  obtain ⟨hco, hok', -⟩ := (coherent_keeps cfg).toKeepsCached.run_rounds hcoh.1 hok
    (meets_of_forall (fun _ _ => trivial) _ _) hrun
  obtain ⟨hl, hnum, hfb⟩ := hco.locate hok' n
  have hdb : s'.db = s.db :=
    htouch.same.db.trans (getLockedFileBlock_locates cfg s fi' n).db_eq
  have hco' := hl.touches htouch
  have hb := hco'.backed (hdb ▸ hfb)
  have hrep := replaceStorageBlock_replaces s'.db fi'.stIno
    (getLockedFileBlock cfg s fi' n).fblock
    (s'.lock (getLockedFileBlock cfg s fi' n).fblock.storageBlock) hash
  rw [← hr] at hrep
  generalize (getLockedFileBlock cfg s fi' n).fblock = fb at hnum hb hrep ⊢
  refine ⟨⟨?_, ?_⟩, ?_, ?_, hrep.rowHash_hit, hrep.rowHash_absent hb,
    hrep.useOf_of_ne hco'.unique hb⟩
  · rw [hrep.fileHash_eq, hnum, if_pos rfl]
  · intro f o hne
    rw [hrep.fileHash_eq, hnum, if_neg hne]
  · intro k
    refine ⟨fun hk => hrep.hashUnique hco'.unique _ _ _ hk (hrep.rowHash_self hb), ?_⟩
    rintro rfl
    exact hrep.rowHash_self hb
  · constructor
    · intro hp
      exact hrep.found_of_present hp
    · rintro ⟨k, hk⟩
      by_contra hp
      exact hrep.new_of_absent (Bool.eq_false_iff.mpr hp) k hk

/-- A new content for the block of a file with one block. -/
theorem replaceStorageBlock_maps_one :
    ∃ fs : Fs 0 (List UInt8), ∃ r, fs = Fs.after (plainConfig 0)
        [.create ['/', 'f'] sIfreg, .write 0 [7] 0] ∧
      r = replaceStorageBlock
        (getLockedFileBlock (plainConfig 0) fs.store (fs.store.db.getByPath ['/', 'f']) 0).store.db
        2
        (getLockedFileBlock (plainConfig 0) fs.store (fs.store.db.getByPath ['/', 'f']) 0).fblock
        ((getLockedFileBlock (plainConfig 0) fs.store
          (fs.store.db.getByPath ['/', 'f']) 0).store.lock
          (getLockedFileBlock (plainConfig 0) fs.store
            (fs.store.db.getByPath ['/', 'f']) 0).fblock.storageBlock) [8] ∧
      r.db.fileHash 2 0 = some [8] ∧
      ∀ k, r.db.rowHash k = some [8] ↔ k = r.fblock.storageBlockNum := by
  refine ⟨_, _, rfl, rfl, ?_⟩
  obtain ⟨⟨hself, -⟩, hrow, -⟩ := replaceStorageBlock_maps (plainConfig 0)
    (Fs.after (plainConfig 0) [.create ['/', 'f'] sIfreg, .write 0 [7] 0])
    (Fs.after_reachable _ _) _ _ (.inr ⟨['/', 'f'], rfl⟩) [] _ _ [] rfl 0 [8] .none _ rfl
  exact ⟨hself, hrow⟩

end Wwdedup
