import Wwdedup.RoundSteps
import Wwdedup.Lib.Throwing

/-!
# Statements that fail

The methods of the database layer with a statement that throws.  A `Point` is a place in the
source where SQLite or the storage file is called for a block; the environment says at which
points the call throws, and the exception remembers its point.  Where nothing fails the methods
do what those of `Database` do.

`replaceStorageBlock` rolls its transaction back, but it has changed the `block_info` and the
use count of the locked block on the way, and these stay as they are.
-/

namespace Wwdedup

open Throwing

variable {bits : ℕ} {H : Type} [DecidableEq H]

/-- A call in the source that may throw. -/
inductive Place where
  | beginExclusive
  | commit
  | rollback
  | selectBlockHash
  | increaseUseCount
  | updateBlockHash
  | insertBlockHash
  | replaceFileBlock
  | setUseCount
  | getFileBlock
  | deleteFileBlock
  | decreaseUseCount
  | updateFileSize
  | readStorage
  deriving DecidableEq, Repr

/-- A call that may throw, with the number of the file block that it is made for. -/
structure Point where
  block : ℕ
  place : Place
  deriving DecidableEq, Repr

/-- How a method ends without a result: with the exception of a call, with a null pointer that
it follows, or at a mutex that is never unlocked. -/
inductive Stop where
  | exception (p : Point)
  | crash
  | blocked
  deriving DecidableEq, Repr

abbrev Throws (σ α : Type) := ExceptT Stop (StateM σ) α

/-- The tables as the connection sees them, and those that a rollback brings back. -/
structure Tables (H : Type) where
  db : Db H
  saved : Option (Db H)

namespace Failing

/-- `try { body } catch (exception &e) { handler }`. -/
def catchException {σ α : Type} (body : Throws σ α) (handler : Point → Throws σ α) :
    Throws σ α :=
  tryCatch body fun e =>
    match e with
    | .exception p => handler p
    | e => throw e

variable (fails : Point → Bool)

/-- A statement that changes the tables. -/
def statement (p : Point) (f : Db H → Db H) : Throws (Tables H) PUnit := do
  point fails Stop.exception p
  modify fun t => { t with db := f t.db }

/-- `transactionBegin(tr_exclusive)`. -/
def transactionBegin (n : ℕ) : Throws (Tables H) PUnit := do
  point fails Stop.exception ⟨n, .beginExclusive⟩
  modify fun t => { t with saved := some t.db }

/-- `transactionCommit`. -/
def transactionCommit (n : ℕ) : Throws (Tables H) PUnit := do
  point fails Stop.exception ⟨n, .commit⟩
  modify fun t => { t with saved := none }

/-- `transactionRollback`. -/
def transactionRollback (n : ℕ) : Throws (Tables H) PUnit := do
  point fails Stop.exception ⟨n, .rollback⟩
  modify fun t => ⟨t.saved.getD t.db, none⟩

end Failing

/-! ### `replaceStorageBlock` -/

/-- What `replaceStorageBlock` works on: the tables, the `block_info`, and the storage block that
it got from the weak pointer with its mutex. -/
structure Replacing (bits : ℕ) (H : Type) where
  tables : Tables H
  fblock : BlockInfo H
  sblock : Option (StorageBlock bits H)
  locked : Bool

namespace Replacing

def onTables {α : Type} (m : Throws (Tables H) α) : Throws (Replacing bits H) α :=
  zoom tables (fun t r => { r with tables := t }) m

def setHash (r : Replacing bits H) (hash : H) : Replacing bits H :=
  { r with fblock := { r.fblock with hash := .digest hash } }

/-- `fblock->storageBlockNum = num; fblock->storageBlock.reset()`. -/
def setNum (r : Replacing bits H) (num : ℕ) : Replacing bits H :=
  { r with fblock := { r.fblock with storageBlockNum := num, storageBlock := none } }

/-- `if (sblock) sblock->use_count--`. -/
def release (r : Replacing bits H) : Replacing bits H :=
  { r with sblock := r.sblock.map StorageBlock.release }

def setDb (r : Replacing bits H) (db : Db H) : Replacing bits H :=
  { r with tables := { r.tables with db := db } }

def setLocked (r : Replacing bits H) (locked : Bool) : Replacing bits H :=
  { r with locked := locked }

section setters

variable (r : Replacing bits H) (hash : H) (locked : Bool)

section

omit [DecidableEq H]

@[simp] theorem setHash_tables : (r.setHash hash).tables = r.tables := rfl
@[simp] theorem setHash_sblock : (r.setHash hash).sblock = r.sblock := rfl
@[simp] theorem setLocked_tables : (r.setLocked locked).tables = r.tables := rfl
@[simp] theorem setLocked_sblock : (r.setLocked locked).sblock = r.sblock := rfl

end

end setters

/-- The state in which the method is called. -/
def start (s : Store bits H) (fblock : BlockInfo H) : Replacing bits H :=
  ⟨⟨s.db, none⟩, fblock, s.lock fblock.storageBlock, false⟩

end Replacing

namespace Failing

open Replacing

variable (fails : Point → Bool)

/-- The part of `replaceStorageBlock` from the SELECT to the row of the hash. -/
def countHash (n : ℕ) (hash : H) : Throws (Replacing bits H) Bool := do
  point fails Stop.exception ⟨n, .selectBlockHash⟩
  let r ← get
  match r.tables.db.selectBlockHash hash with
  | some row =>
    modify fun r => r.setNum row.id
    onTables (statement fails ⟨n, .increaseUseCount⟩ fun db => db.increaseUseCount hash)
    modify release
    return true
  | none =>
    match r.sblock.filter fun b => b.useCount = 1 with
    | some b =>
      onTables (statement fails ⟨n, .updateBlockHash⟩ fun db =>
        db.updateBlockHash hash b.storageBlockNum)
      return false
    | none =>
      onTables (statement fails ⟨n, .insertBlockHash⟩ fun db => db.insertBlockHash hash)
      modify fun r' => r'.setNum r.tables.db.blockHashes.nextId
      modify release
      return false

/-- The statements of `replaceStorageBlock` after that. -/
def mapFileBlock (n ino : ℕ) (hash : H) : Throws (Replacing bits H) PUnit := do
  onTables (statement fails ⟨n, .replaceFileBlock⟩ fun db => db.replaceFileBlock ino n hash)
  let r ← get
  match r.sblock with
  | some b =>
    onTables (statement fails ⟨n, .setUseCount⟩ fun db =>
      db.setUseCount b.useCount b.storageBlockNum)
  | none => return ⟨⟩

/-- The handler of `replaceStorageBlock`. -/
def undo {α : Type} (n : ℕ) (p : Point) : Throws (Replacing bits H) α := do
  modify fun r => r.setLocked false
  onTables (transactionRollback fails n)
  throw (.exception p)

/-- `DataBase::replaceStorageBlock`; `n` is `fblock->fileBlockNum`. -/
def replaceStorageBlock (n ino : ℕ) (hash : H) : Throws (Replacing bits H) Bool := do
  onTables (transactionBegin fails n)
  modify fun r => r.setLocked r.sblock.isSome
  catchException
    (do
      modify fun r => r.setHash hash
      let present ← countHash fails n hash
      mapFileBlock fails n ino hash
      onTables (transactionCommit fails n)
      modify fun r => r.setLocked false
      return present)
    (undo fails n)

end Failing

/-! ### What is left when a statement throws -/

namespace Failing

open Replacing

variable {fails : Point → Bool} {n ino : ℕ} {hash : H} {α : Type}

theorem exec_catchException {σ : Type} (body : Throws σ α) (handler : Point → Throws σ α)
    (s : σ) : exec (catchException body handler) s = match exec body s with
      | (.error (.exception p), s') => exec (handler p) s'
      | r => r := by
  rw [catchException, exec_tryCatch]
  rcases exec body s with ⟨(p | - | -) | a, s'⟩ <;> rfl

section

omit [DecidableEq H]

theorem exec_statement_bind (p : Point) (f : Db H → Db H)
    (k : PUnit → Throws (Replacing bits H) α) (r : Replacing bits H) :
    exec (onTables (statement fails p f) >>= k) r =
      if fails p then (.error (.exception p), r) else exec (k ⟨⟩) (r.setDb (f r.tables.db)) := by
  rw [exec_bind, onTables, exec_zoom, statement, exec_point_bind]
  by_cases h : fails p
  · rw [if_pos h, if_pos h]
  · rw [if_neg h, if_neg h]
    rfl

theorem exec_begin_bind (k : PUnit → Throws (Replacing bits H) α) (r : Replacing bits H) :
    exec (onTables (transactionBegin fails n) >>= k) r =
      if fails ⟨n, .beginExclusive⟩ then (.error (.exception ⟨n, .beginExclusive⟩), r)
      else exec (k ⟨⟩) { r with tables := { r.tables with saved := some r.tables.db } } := by
  rw [exec_bind, onTables, exec_zoom, transactionBegin, exec_point_bind]
  by_cases h : fails ⟨n, .beginExclusive⟩
  · rw [if_pos h, if_pos h]
  · rw [if_neg h, if_neg h]
    rfl

theorem exec_commit_bind (k : PUnit → Throws (Replacing bits H) α) (r : Replacing bits H) :
    exec (onTables (transactionCommit fails n) >>= k) r =
      if fails ⟨n, .commit⟩ then (.error (.exception ⟨n, .commit⟩), r)
      else exec (k ⟨⟩) { r with tables := { r.tables with saved := none } } := by
  rw [exec_bind, onTables, exec_zoom, transactionCommit, exec_point_bind]
  by_cases h : fails ⟨n, .commit⟩
  · rw [if_pos h, if_pos h]
  · rw [if_neg h, if_neg h]
    rfl

theorem exec_rollback_bind (k : PUnit → Throws (Replacing bits H) α) (r : Replacing bits H)
    (h : fails ⟨n, .rollback⟩ = false) :
    exec (onTables (transactionRollback fails n) >>= k) r =
      exec (k ⟨⟩) { r with tables := ⟨r.tables.saved.getD r.tables.db, none⟩ } := by
  rw [exec_bind, onTables, exec_zoom, transactionRollback, exec_point_bind, h]
  rfl

end

/-- The `block_info` and the locked block as they are when the call is made at the place. -/
def heldAt (db : Db H) (fblock : BlockInfo H) (sblock : Option (StorageBlock bits H)) (hash : H) :
    Place → BlockInfo H × Option (StorageBlock bits H)
  | .beginExclusive => (fblock, sblock)
  | .selectBlockHash => ({ fblock with hash := .digest hash }, sblock)
  | .updateBlockHash => ({ fblock with hash := .digest hash }, sblock)
  | .insertBlockHash => ({ fblock with hash := .digest hash }, sblock)
  | .increaseUseCount => ((Wwdedup.replaceStorageBlock db 0 fblock sblock hash).fblock, sblock)
  | _ =>
    ((Wwdedup.replaceStorageBlock db 0 fblock sblock hash).fblock,
      (Wwdedup.replaceStorageBlock db 0 fblock sblock hash).sblock)

/-- The calls of the end of the transaction. -/
def mapCalls (sblock : Option (StorageBlock bits H)) : List Place :=
  .replaceFileBlock ::
    match sblock with
    | some _ => [.setUseCount, .commit]
    | none => [.commit]

/-- The calls that may throw, in the order in which they are made. -/
def calls (db : Db H) (sblock : Option (StorageBlock bits H)) (hash : H) : List Place :=
  .beginExclusive :: .selectBlockHash ::
    (match db.selectBlockHash hash with
      | some _ => .increaseUseCount
      | none =>
        match sblock.filter fun b => b.useCount = 1 with
        | some _ => .updateBlockHash
        | none => .insertBlockHash) ::
    mapCalls sblock

/-- An exception of the first part of a body goes to the handler. -/
theorem exec_catch_bind {σ β : Type} (m : Throws σ β) (k : β → Throws σ α)
    (handler : Point → Throws σ α) (s : σ) :
    exec (catchException (m >>= k) handler) s = match exec m s with
      | (.ok a, s') => exec (catchException (k a) handler) s'
      | (.error (.exception p), s') => exec (handler p) s'
      | (.error e, s') => (.error e, s') := by
  rw [exec_catchException, exec_bind]
  rcases exec m s with ⟨(p | - | -) | a, s'⟩
  · rfl
  · rfl
  · rfl
  · exact (exec_catchException ..).symm

omit [DecidableEq H] in
theorem exec_undo (p : Point) (r : Replacing bits H) (hroll : fails ⟨n, .rollback⟩ = false) :
    exec (undo fails n p : Throws (Replacing bits H) α) r =
      (.error (.exception p),
        ⟨⟨r.tables.saved.getD r.tables.db, none⟩, r.fblock, r.sblock, false⟩) := by
  rw [undo, exec_modify_bind, exec_rollback_bind _ _ hroll, exec_throw]
  rfl

theorem countHash_exec (r : Replacing bits H) :
    exec (countHash fails n hash) r =
      if fails ⟨n, .selectBlockHash⟩ then (.error (.exception ⟨n, .selectBlockHash⟩), r)
      else
        match r.tables.db.selectBlockHash hash with
        | some row =>
          if fails ⟨n, .increaseUseCount⟩ then
            (.error (.exception ⟨n, .increaseUseCount⟩), r.setNum row.id)
          else (.ok true, ((r.setNum row.id).setDb (r.tables.db.increaseUseCount hash)).release)
        | none =>
          match r.sblock.filter fun b => b.useCount = 1 with
          | some b =>
            if fails ⟨n, .updateBlockHash⟩ then (.error (.exception ⟨n, .updateBlockHash⟩), r)
            else (.ok false, r.setDb (r.tables.db.updateBlockHash hash b.storageBlockNum))
          | none =>
            if fails ⟨n, .insertBlockHash⟩ then (.error (.exception ⟨n, .insertBlockHash⟩), r)
            else (.ok false, ((r.setDb (r.tables.db.insertBlockHash hash)).setNum
              r.tables.db.blockHashes.nextId).release) := by
  rw [countHash, exec_point_bind]
  congr 1
  rw [exec_get_bind]
  cases r.tables.db.selectBlockHash hash with
  | some row =>
    dsimp only
    rw [exec_modify_bind, exec_statement_bind, exec_modify_bind]
    rfl
  | none =>
    dsimp only
    cases r.sblock.filter fun b => decide (b.useCount = 1) with
    | some b =>
      dsimp only
      rw [exec_statement_bind]
      rfl
    | none =>
      dsimp only
      rw [exec_statement_bind, exec_modify_bind, exec_modify_bind]
      rfl

omit [DecidableEq H] in
theorem mapFileBlock_exec (present : Bool) (r : Replacing bits H)
    (hroll : fails ⟨n, .rollback⟩ = false) {db₀ : Db H} (hsaved : r.tables.saved = some db₀) :
    exec (catchException
      (do
        mapFileBlock fails n ino hash
        onTables (transactionCommit fails n)
        modify fun r => r.setLocked false
        return present)
      (undo fails n)) r =
      match (mapCalls r.sblock).find? fun place => fails ⟨n, place⟩ with
      | some place =>
        (.error (.exception ⟨n, place⟩), ⟨⟨db₀, none⟩, r.fblock, r.sblock, false⟩)
      | none => (.ok present,
          ⟨⟨r.tables.db.mapFileBlock ino n hash r.sblock, none⟩, r.fblock, r.sblock, false⟩) := by
  obtain ⟨⟨db, saved⟩, fblock, sblock, locked⟩ := r
  change saved = some db₀ at hsaved
  subst hsaved
  rw [exec_catchException]
  simp only [mapFileBlock, bind_assoc, exec_statement_bind, exec_get_bind, mapCalls,
    List.find?_cons]
  cases fails ⟨n, .replaceFileBlock⟩ with
  | true => simp only [if_true, exec_undo _ _ hroll, Option.getD_some]
  | false =>
    cases sblock with
    | some b =>
      simp only [exec_statement_bind, exec_commit_bind, exec_modify_bind, setDb, List.find?_cons]
      cases fails ⟨n, .setUseCount⟩ with
      | true => simp only [Bool.false_eq_true, if_false, if_true, exec_undo _ _ hroll,
          Option.getD_some]
      | false =>
        cases fails ⟨n, .commit⟩ with
        | true => simp only [Bool.false_eq_true, if_false, if_true, exec_undo _ _ hroll,
            Option.getD_some]
        | false => rfl
    | none =>
      simp only [pure_bind, exec_commit_bind, exec_modify_bind, setDb, List.find?_cons]
      cases fails ⟨n, .commit⟩ with
      | true => simp only [Bool.false_eq_true, if_false, if_true, exec_undo _ _ hroll,
          Option.getD_some]
      | false => rfl

omit [DecidableEq H] in
theorem mapCalls_congr {sblock sblock' : Option (StorageBlock bits H)}
    (h : sblock'.isSome = sblock.isSome) : mapCalls sblock' = mapCalls sblock := by
  cases sblock <;> cases sblock' <;> first | rfl | cases h

/-- At the end of the transaction all changes to the `block_info` and the block are made. -/
theorem heldAt_of_mem_mapCalls {db : Db H} {fblock : BlockInfo H}
    {sblock : Option (StorageBlock bits H)} {place : Place} (h : place ∈ mapCalls sblock) :
    heldAt db fblock sblock hash place =
      ((Wwdedup.replaceStorageBlock db 0 fblock sblock hash).fblock,
        (Wwdedup.replaceStorageBlock db 0 fblock sblock hash).sblock) := by
  cases sblock with
  | some b =>
    simp only [mapCalls, List.mem_cons, List.not_mem_nil, or_false] at h
    rcases h with rfl | rfl | rfl <;> rfl
  | none =>
    simp only [mapCalls, List.mem_cons, List.not_mem_nil, or_false] at h
    rcases h with rfl | rfl <;> rfl

/-- The file that is written does not matter to the `block_info` and the block. -/
theorem replaceStorageBlock_ino (db : Db H) (ino : ℕ) (fblock : BlockInfo H)
    (sblock : Option (StorageBlock bits H)) (hash : H) :
    (Wwdedup.replaceStorageBlock db ino fblock sblock hash).fblock =
        (Wwdedup.replaceStorageBlock db 0 fblock sblock hash).fblock ∧
      (Wwdedup.replaceStorageBlock db ino fblock sblock hash).sblock =
        (Wwdedup.replaceStorageBlock db 0 fblock sblock hash).sblock := by
  unfold Wwdedup.replaceStorageBlock
  cases db.selectBlockHash hash with
  | some row => exact ⟨rfl, rfl⟩
  | none =>
    dsimp only
    cases sblock.filter fun b => decide (b.useCount = 1) <;> exact ⟨rfl, rfl⟩

/-- The result and the state when the call at the place throws, or none does. -/
def outcome (db : Db H) (ino : ℕ) (fblock : BlockInfo H) (sblock : Option (StorageBlock bits H))
    (hash : H) : Option Place → Except Stop Bool × Replacing bits H
  | some place => (.error (.exception ⟨fblock.fileBlockNum, place⟩),
      ⟨⟨db, none⟩, (heldAt db fblock sblock hash place).1,
        (heldAt db fblock sblock hash place).2, false⟩)
  | none =>
    let q := Wwdedup.replaceStorageBlock db ino fblock sblock hash
    (.ok q.present, ⟨⟨q.db, none⟩, q.fblock, q.sblock, false⟩)

/-- The end of the transaction, with the row of the hash as `countHash` leaves it. -/
theorem rest_exec {db db₁ : Db H} {fblock : BlockInfo H} {sblock : Option (StorageBlock bits H)}
    {q : Replaced bits H} (hq : Wwdedup.replaceStorageBlock db ino fblock sblock hash = q)
    (hdb : q.db = db₁.mapFileBlock ino fblock.fileBlockNum hash q.sblock)
    (hs : q.sblock.isSome = sblock.isSome)
    (hroll : fails ⟨fblock.fileBlockNum, .rollback⟩ = false) (locked : Bool) :
    exec (catchException
      (do
        mapFileBlock fails fblock.fileBlockNum ino hash
        onTables (transactionCommit fails fblock.fileBlockNum)
        modify fun r => r.setLocked false
        return q.present)
      (undo fails fblock.fileBlockNum)) ⟨⟨db₁, some db⟩, q.fblock, q.sblock, locked⟩ =
      outcome db ino fblock sblock hash
        ((mapCalls sblock).find? fun place => fails ⟨fblock.fileBlockNum, place⟩) := by
  obtain ⟨hfblock, hsblock⟩ := replaceStorageBlock_ino db ino fblock sblock hash
  rw [hq] at hfblock hsblock
  rw [mapFileBlock_exec _ _ hroll rfl, mapCalls_congr hs]
  cases hfind : (mapCalls sblock).find? fun place => fails ⟨fblock.fileBlockNum, place⟩ with
  | none =>
    dsimp only
    rw [outcome, hq, hdb]
  | some place =>
    dsimp only
    rw [outcome, heldAt_of_mem_mapCalls (List.mem_of_find?_eq_some hfind), hfblock, hsblock]

/-- **What `replaceStorageBlock` leaves**: it throws at the first of its calls that fails, with
the tables as they were and the `block_info` and the locked block as they are there; when none
fails it does what the method without failures does. -/
theorem replaceStorageBlock_exec (ino : ℕ) (hash : H) (db : Db H) (fblock : BlockInfo H)
    (sblock : Option (StorageBlock bits H))
    (hroll : fails ⟨fblock.fileBlockNum, .rollback⟩ = false) :
    exec (replaceStorageBlock fails fblock.fileBlockNum ino hash)
        ⟨⟨db, none⟩, fblock, sblock, false⟩ =
      outcome db ino fblock sblock hash
        ((calls db sblock hash).find? fun place => fails ⟨fblock.fileBlockNum, place⟩) := by
  have hreleased : (sblock.map StorageBlock.release).isSome = sblock.isSome := by
    cases sblock <;> rfl
  rw [replaceStorageBlock, exec_begin_bind, calls, List.find?_cons]
  cases fails ⟨fblock.fileBlockNum, .beginExclusive⟩ with
  | true => rfl
  | false =>
    rw [if_neg Bool.false_ne_true, exec_modify_bind, exec_catchException, exec_modify_bind,
      ← exec_catchException, exec_catch_bind, countHash_exec, List.find?_cons]
    cases fails ⟨fblock.fileBlockNum, .selectBlockHash⟩ with
    | true => exact exec_undo _ _ hroll
    | false =>
      rw [if_neg Bool.false_ne_true]
      simp only [setHash_tables, setLocked_tables, setHash_sblock, setLocked_sblock]
      have hr := replaceStorageBlock_replaces db ino fblock sblock hash
      generalize hq : Wwdedup.replaceStorageBlock db ino fblock sblock hash = q at hr
      cases hr with
      | hit row sel =>
        rw [sel]
        dsimp only
        rw [List.find?_cons]
        cases fails ⟨fblock.fileBlockNum, .increaseUseCount⟩ with
        | true =>
          dsimp only
          rw [outcome, heldAt, ← (replaceStorageBlock_ino db ino ..).1, hq]
          exact exec_undo _ _ hroll
        | false => exact rest_exec hq rfl hreleased hroll _
      | inPlace b locked one sel =>
        subst locked
        rw [sel, Option.filter_some_pos (by simpa using one)]
        dsimp only
        rw [List.find?_cons]
        cases fails ⟨fblock.fileBlockNum, .updateBlockHash⟩ with
        | true => exact exec_undo _ _ hroll
        | false => exact rest_exec hq rfl rfl hroll _
      | fresh shared sel =>
        have hnone : sblock.filter (fun b => decide (b.useCount = 1)) = none :=
          Option.filter_eq_none_iff.mpr fun b hb => by simpa using shared b hb
        rw [sel, hnone]
        dsimp only
        rw [List.find?_cons]
        cases fails ⟨fblock.fileBlockNum, .insertBlockHash⟩ with
        | true => exact exec_undo _ _ hroll
        | false => exact rest_exec hq rfl hreleased hroll _

end Failing

section undone

variable {db : Db H} {fblock : BlockInfo H} {sblock : Option (StorageBlock bits H)} {hash : H}

namespace Failing

/-- What the method has assigned when it makes the call at the place was there before: the new
hash, from the SELECT on, and from the row of the hash on the number without a weak pointer,
unless the row is changed in place. -/
def NothingNew (db : Db H) (fblock : BlockInfo H) (sblock : Option (StorageBlock bits H))
    (hash : H) : Place → Prop
  | .beginExclusive => True
  | .selectBlockHash => fblock.hash = .digest hash
  | .updateBlockHash => fblock.hash = .digest hash
  | .insertBlockHash => fblock.hash = .digest hash
  | _ => fblock.hash = .digest hash ∧
    match db.selectBlockHash hash with
    | some row => fblock.storageBlockNum = row.id ∧ fblock.storageBlock = none
    | none => (∃ b, sblock = some b ∧ b.useCount = 1) ∨
        fblock.storageBlockNum = db.blockHashes.nextId ∧ fblock.storageBlock = none

omit [DecidableEq H] in
theorem setHash_eq_iff : { fblock with hash := .digest hash } = fblock ↔
    fblock.hash = .digest hash := by
  constructor
  · intro h
    rw [← h]
  · intro h
    rw [← h]

omit [DecidableEq H] in
theorem setNum_eq_iff {num : ℕ} :
    { fblock with hash := .digest hash, storageBlockNum := num, storageBlock := none } = fblock ↔
      fblock.hash = .digest hash ∧ fblock.storageBlockNum = num ∧ fblock.storageBlock = none := by
  constructor
  · intro h
    rw [← h]
    exact ⟨rfl, rfl, rfl⟩
  · rintro ⟨hhash, hnum, hptr⟩
    rw [← hhash, ← hnum, ← hptr]

/-- Once the row of the hash is there, nothing new was assigned exactly when the `block_info` is
the one that a successful call leaves; the locked block is the same then. -/
theorem replaceStorageBlock_same_iff (db : Db H) (hash : H)
    (hs : fblock.storageBlock = none → sblock = none) :
    ((Wwdedup.replaceStorageBlock db 0 fblock sblock hash).fblock = fblock ↔
        NothingNew db fblock sblock hash .commit) ∧
      (NothingNew db fblock sblock hash .commit →
        (Wwdedup.replaceStorageBlock db 0 fblock sblock hash).sblock = sblock) := by
  unfold NothingNew
  have hr := replaceStorageBlock_replaces db 0 fblock sblock hash
  generalize Wwdedup.replaceStorageBlock db 0 fblock sblock hash = q at hr
  cases hr with
  | hit row sel =>
    rw [sel]
    refine ⟨setNum_eq_iff, fun h => ?_⟩
    rw [hs h.2.2]
    rfl
  | inPlace b locked one sel =>
    rw [sel]
    refine ⟨?_, fun _ => locked.symm⟩
    rw [setHash_eq_iff]
    exact ⟨fun h => ⟨h, .inl ⟨b, locked, one⟩⟩, fun h => h.1⟩
  | fresh shared sel =>
    rw [sel]
    constructor
    · rw [setNum_eq_iff]
      refine and_congr_right fun _ => ⟨.inr, fun h => h.resolve_left ?_⟩
      rintro ⟨b, hb, hone⟩
      exact shared b hb hone
    · rintro ⟨-, ⟨b, hb, hone⟩ | ⟨-, hptr⟩⟩
      · exact absurd hone (shared b hb)
      · rw [hs hptr]
        rfl

theorem heldAt_eq_iff (hs : fblock.storageBlock = none → sblock = none) (place : Place) :
    heldAt db fblock sblock hash place = (fblock, sblock) ↔
      NothingNew db fblock sblock hash place := by
  obtain ⟨hfblock, hsblock⟩ := replaceStorageBlock_same_iff db hash hs
  have hlate : ((Wwdedup.replaceStorageBlock db 0 fblock sblock hash).fblock,
      (Wwdedup.replaceStorageBlock db 0 fblock sblock hash).sblock) = (fblock, sblock) ↔
        NothingNew db fblock sblock hash .commit := by
    rw [Prod.mk.injEq, hfblock]
    exact ⟨fun h => h.1, fun h => ⟨h, hsblock h⟩⟩
  have hearly : ({ fblock with hash := .digest hash }, sblock) = (fblock, sblock) ↔
      fblock.hash = .digest hash := by
    rw [Prod.mk.injEq, setHash_eq_iff]
    exact and_iff_left rfl
  cases place with
  | beginExclusive => exact ⟨fun _ => trivial, fun _ => rfl⟩
  | selectBlockHash => exact hearly
  | updateBlockHash => exact hearly
  | insertBlockHash => exact hearly
  | increaseUseCount =>
    show (_, sblock) = (fblock, sblock) ↔ _
    rw [Prod.mk.injEq, hfblock]
    exact and_iff_left rfl
  | _ => exact hlate

end Failing

/-- **When a failed `replaceStorageBlock` leaves everything as it was**, the mutex included:
exactly when what it had assigned until then was there before. -/
theorem replaceStorageBlock_undone_iff (s : Store bits H) (fblock : BlockInfo H) (ino : ℕ)
    (hash : H) (fails : Point → Bool) (hroll : fails ⟨fblock.fileBlockNum, .rollback⟩ = false)
    (p : Point) (r : Replacing bits H)
    (hthrow : exec (Failing.replaceStorageBlock fails fblock.fileBlockNum ino hash)
      (.start s fblock) = (.error (.exception p), r)) :
    r = .start s fblock ↔
      Failing.NothingNew s.db fblock (s.lock fblock.storageBlock) hash p.place := by
  have hs : fblock.storageBlock = none → s.lock fblock.storageBlock = none := by
    intro h
    rw [h, Store.lock_none]
  rw [Replacing.start, Failing.replaceStorageBlock_exec _ _ _ _ _ hroll] at hthrow
  rw [← Failing.heldAt_eq_iff hs]
  cases hfind : (Failing.calls s.db (s.lock fblock.storageBlock) hash).find? fun place =>
      fails ⟨fblock.fileBlockNum, place⟩ with
  | none =>
    rw [hfind] at hthrow
    cases hthrow
  | some place =>
    rw [hfind] at hthrow
    cases hthrow
    rw [Replacing.start, Replacing.mk.injEq, Prod.ext_iff]
    constructor
    · rintro ⟨-, hfblock, hsblock, -⟩
      exact ⟨hfblock, hsblock⟩
    · rintro ⟨hfblock, hsblock⟩
      exact ⟨rfl, hfblock, hsblock, rfl⟩

end undone

/-- The call at one point fails. -/
def onlyAt (p : Point) : Point → Bool := fun q => q = p

/-- A file of one block, as its only handle knows it. -/
def oneBlock : Fs 0 (List UInt8) :=
  Fs.after (plainConfig 0) [.create ['/', 'f'] sIfreg, .write 0 [7] 0]

/-- What the handle knows of the block. -/
def oneBlockInfo : BlockInfo (List UInt8) where
  fileBlockNum := 0
  storageBlockNum := 1
  hash := .digest [7]
  loaded := true
  empty := true
  storageBlock := some ⟨1, 0⟩

example : (oneBlock.handles 0).bind (fun fi => fi.blocks 0) = some oneBlockInfo := rfl

/-- A rewrite of the same bytes that fails in the SELECT changes nothing. -/
theorem replaceStorageBlock_undone_iff_rewrite :
    (⟨⟨oneBlock.store.db, none⟩, oneBlockInfo, oneBlock.store.lock oneBlockInfo.storageBlock,
        false⟩ : Replacing 0 (List UInt8)) = .start oneBlock.store oneBlockInfo ↔
      Failing.NothingNew oneBlock.store.db oneBlockInfo
        (oneBlock.store.lock oneBlockInfo.storageBlock) [7] .selectBlockHash :=
  replaceStorageBlock_undone_iff oneBlock.store oneBlockInfo 2 [7]
    (onlyAt ⟨0, .selectBlockHash⟩) rfl ⟨0, .selectBlockHash⟩ _ rfl

/-- **A failed write is remembered.**  The COMMIT of a write of 8 fails: the `block_info` has the
hash of the new bytes, which no table has.  A truncation through the handle then takes the row of
`file_blocks` without lowering the use count of the block. -/
theorem failed_write_remembered :
    (¬∀ (p : Point) (r : Replacing 0 (List UInt8)), p.place ≠ .rollback →
      exec (Failing.replaceStorageBlock (onlyAt p) 0 2 [8]) (.start oneBlock.store oneBlockInfo) =
        (.error (.exception p), r) → r = .start oneBlock.store oneBlockInfo) ∧
    ∃ r fi, exec (Failing.replaceStorageBlock (onlyAt ⟨0, .commit⟩) 0 2 [8])
        (.start oneBlock.store oneBlockInfo) = (.error (.exception ⟨0, .commit⟩), r) ∧
      oneBlock.handles 0 = some fi ∧
      ((releaseStorageBlock (plainConfig 0) r.tables.db (fi.setBlock r.fblock) 0).map fun q =>
        (q.1.fileHash 2 0, q.1.useOf 1)) = .ok (none, some 1) ∧
      ((releaseStorageBlock (plainConfig 0) oneBlock.store.db fi 0).map fun q =>
        (q.1.fileHash 2 0, q.1.useOf 1)) = .ok (none, some 0) := by
  refine ⟨fun hall => ?_, _, _, rfl, rfl, rfl, rfl⟩
  have h := congrArg (fun r : Replacing 0 (List UInt8) => r.fblock.hash)
    (hall ⟨0, .commit⟩ _ (by decide) rfl)
  have h' : (HashPtr.digest [8] : HashPtr (List UInt8)) = .digest [7] := h
  revert h'
  decide

end Wwdedup
