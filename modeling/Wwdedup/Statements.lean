import Wwdedup.DedupFS
import Wwdedup.Lib.Throwing

/-!
# Cached prepared statements

The `PreparedStmt` objects that `DataBase` keeps live as long as it does, so what one method
leaves behind in a statement meets the next method that uses it.  This file models that state:

* `PreparedStmt` is the state of one statement for SQLite, with the values it is bound to; the
  field `passed` remembers what the `bind*` calls were given, whether SQLite took it or not;
* `stmtStep` executes one call on the statements and shows the execution that it starts;
* the functions of the namespace `Prepared` are the methods of `DataBase`, reduced to the
  calls they issue on the cached statements.  What `sqlite3_step` returns is read off a list,
  so that every outcome at every place is covered.

The statements that a method prepares for itself are left out: nobody else sees them.
-/

namespace Wwdedup

open GuardedRun Throwing

variable {bits : ℕ} {H : Type} [DecidableEq H]

/-! ### One statement -/

/-- The cached statements. -/
inductive Stmt where
  | getByPath
  | getFileBlock
  | deleteFileBlock
  | decreaseUseCount
  | selectBlockHash
  | increaseUseCount
  | setUseCount
  | updateBlockHash
  | insertBlockHash
  | replaceFileBlock
  | updateFileSize
  deriving DecidableEq, Repr

/-- A value that is bound or read; a blob is a digest or the empty string. -/
inductive Value (H : Type) where
  | int (n : ℤ)
  | text (p : Path)
  | blob (h : Option H)
  | null
  deriving DecidableEq, Repr

/-- What `sqlite3_step` returns. -/
inductive StepResult (H : Type) where
  | row (columns : List (Value H))
  | done
  | error
  deriving DecidableEq, Repr

/-- Where a statement stands: reset, or stepped to a row, to completion or to an error. -/
inductive StmtState where
  | ready
  | row
  | done
  | failed
  deriving DecidableEq, Repr

structure PreparedStmt (H : Type) where
  state : StmtState
  /-- what an execution uses -/
  bound : ℕ → Option (Value H)
  /-- what the last `bind*` call for each parameter was given -/
  passed : ℕ → Option (Value H)

namespace PreparedStmt

/-- A statement that was just prepared. -/
def new : PreparedStmt H := ⟨.ready, fun _ => none, fun _ => none⟩

/-- `bindInt` .. `bindBlob`: SQLite refuses it unless the statement was reset. -/
def bind (p : PreparedStmt H) (index : ℕ) (v : Value H) : PreparedStmt H :=
  { p with
    bound := if p.state = .ready then Function.update p.bound index (some v) else p.bound
    passed := Function.update p.passed index (some v) }

/-- `reset`; the bindings stay. -/
def reset (p : PreparedStmt H) : PreparedStmt H := { p with state := .ready }

/-- `sqlite3_step`. -/
def step (p : PreparedStmt H) (res : StepResult H) : PreparedStmt H :=
  { p with state := match res with
      | .row _ => .row
      | .done => .done
      | .error => .failed }

/-- `executeUpdate`: the statement is reset unless it failed. -/
def executeUpdate (p : PreparedStmt H) (res : StepResult H) : PreparedStmt H :=
  match res with
  | .error => p.step res
  | _ => (p.step res).reset

end PreparedStmt

/-! ### The calls on all statements -/

/-- All statements of one `DataBase`. -/
abbrev Statements (H : Type) := Stmt → PreparedStmt H

/-- `prepareStatements`. -/
def prepareStatements (H : Type) : Statements H := fun _ => .new

/-- A call of a method of `PreparedStmt`, with what `sqlite3_step` returned in it. -/
inductive StmtCall (H : Type) where
  | bind (st : Stmt) (index : ℕ) (v : Value H)
  | next (st : Stmt) (res : StepResult H)
  | executeUpdate (st : Stmt) (res : StepResult H)
  | reset (st : Stmt)
  deriving DecidableEq, Repr

/-- An execution of a statement: the values it uses, and the values it was given. -/
structure Execution (H : Type) where
  used : ℕ → Option (Value H)
  passed : ℕ → Option (Value H)

/-- The execution that `sqlite3_step` starts: on a row it goes on with the one that runs. -/
def PreparedStmt.execution (p : PreparedStmt H) : Option (Execution H) :=
  if p.state = .row then none else some ⟨p.bound, p.passed⟩

/-- One call on the statements. -/
def stmtStep (s : Statements H) : StmtCall H → Except Empty (Statements H × Option (Execution H))
  | .bind st index v => .ok (Function.update s st ((s st).bind index v), none)
  | .next st res => .ok (Function.update s st ((s st).step res), (s st).execution)
  | .executeUpdate st res =>
    .ok (Function.update s st ((s st).executeUpdate res), (s st).execution)
  | .reset st => .ok (Function.update s st (s st).reset, none)

/-! ### The methods of `DataBase` -/

/-- How a method ends early: with an exception, or the process with it. -/
inductive Thrown where
  | exception
  | crash
  deriving DecidableEq, Repr

/-- The calls issued so far, and what the next steps of SQLite will return (completion when
the list is at its end). -/
structure Issue (H : Type) where
  calls : List (StmtCall H)
  results : List (StepResult H)

abbrev Method (H α : Type) := ExceptT Thrown (StateM (Issue H)) α

namespace Prepared

def issue (c : StmtCall H) : Method H PUnit := modify fun w => { w with calls := w.calls ++ [c] }

def stepResult : Method H (StepResult H) := do
  let w ← get
  set { w with results := w.results.tail }
  return w.results.headD .done

def bind (st : Stmt) (index : ℕ) (v : Value H) : Method H PUnit := issue (.bind st index v)

def reset (st : Stmt) : Method H PUnit := issue (.reset st)

/-- `PreparedStmt::next`: the columns of the row it stands on. -/
def next (st : Stmt) : Method H (Option (List (Value H))) := do
  let res ← stepResult
  issue (.next st res)
  match res with
  | .row columns => return some columns
  | .done => return none
  | .error => throw .exception

/-- `PreparedStmt::executeUpdate`. -/
def executeUpdate (st : Stmt) : Method H PUnit := do
  let res ← stepResult
  issue (.executeUpdate st res)
  match res with
  | .error => throw .exception
  | _ => return ⟨⟩

/-- `BEGIN`, `COMMIT` and `ROLLBACK` have a statement of their own; it may fail too. -/
def transaction : Method H PUnit := do
  let res ← stepResult
  match res with
  | .error => throw .exception
  | _ => return ⟨⟩

/-- `try { body } catch (exception &e) { handler }`. -/
def catchException {α : Type} (body handler : Method H α) : Method H α :=
  tryCatch body fun e =>
    match e with
    | .exception => handler
    | .crash => throw .crash

/-- `getInt64`, with the 0 that SQLite gives for NULL. -/
def getInt64 (columns : List (Value H)) (index : ℕ) : ℤ :=
  match columns[index]? with
  | some (.int n) => n
  | _ => 0

/-- `make_shared<string>(getBlob(index))`. -/
def getBlob (columns : List (Value H)) (index : ℕ) : HashPtr H :=
  match columns[index]? with
  | some (.blob (some h)) => .digest h
  | _ => .empty

/-- `*hash`; a null pointer ends the process. -/
def deref (hash : HashPtr H) : Method H (Value H) :=
  match hash with
  | .null => throw .crash
  | .empty => return .blob none
  | .digest h => return .blob (some h)

def getByPath (filename : Path) : Method H (FileInfo H) := do
  bind .getByPath 1 (.text filename)
  let row ← next .getByPath
  reset .getByPath
  match row with
  | some columns =>
    return {
      name := filename, depth := getInt64 columns 1, stIno := (getInt64 columns 0).toNat
      stSize := (getInt64 columns 2).toNat, stMode := (getInt64 columns 3).toNat
      blocks := fun _ => none }
  | none =>
    return { name := [], depth := 0, stIno := 0, stSize := 0, stMode := 0, blocks := fun _ => none }

/-- `DataBase::create` up to the insertion. -/
def create (filename : Path) : Method H PUnit := do
  if filename = ['/'] then
    let _ ← getByPath filename
    return ⟨⟩
  else
    let dir ← getByPath (branchPath filename)
    if dir.stIno = 0 ∨ !sIsdir dir.stMode then return ⟨⟩
    else
      let _ ← getByPath filename
      return ⟨⟩

/-- `DataBase::rename` up to its first change. -/
def rename (oldPath newPath : Path) : Method H PUnit := do
  let oldFile ← getByPath oldPath
  if oldFile.stIno = 0 then return ⟨⟩
  else
    let destDir ← getByPath (branchPath newPath)
    if destDir.stIno = 0 ∨ !sIsdir destDir.stMode then return ⟨⟩
    else
      let _ ← getByPath newPath
      return ⟨⟩

def ftruncate (fi : FileInfo H) (newSize : ℤ) : Method H PUnit := do
  if newSize < 0 ∨ (fi.stSize : ℤ) = newSize then return ⟨⟩
  else
    bind .updateFileSize 1 (.int newSize)
    bind .updateFileSize 2 (.int fi.stIno)
    executeUpdate .updateFileSize

def loadFileBlock (cfg : Config bits H) (fi : FileInfo H) (block : BlockInfo H) :
    Method H (BlockInfo H) := do
  if (block.fileBlockNum : ℤ) * cfg.dbBlockSize > fi.stSize then
    return { block with empty := true, storageBlockNum := 0 }
  else
    bind .getFileBlock 1 (.int fi.stIno)
    bind .getFileBlock 2 (.int block.fileBlockNum)
    let row ← next .getFileBlock
    reset .getFileBlock
    match row with
    | some columns =>
      return { block with
        empty := false
        storageBlockNum := (getInt64 columns 0).toNat
        hash := getBlob columns 1 }
    | none => return { block with empty := true, storageBlockNum := 0 }

/-- The statement of `replaceStorageBlock` that counts the hash in: for a hash that is there,
for a block that is changed in place, or for a new block; and the locked block after it. -/
def countHash (sblock : Option (StorageBlock bits H)) (hash : H) (present : Bool) :
    Method H (Option (StorageBlock bits H)) := do
  if present then
    bind .increaseUseCount 1 (.blob (some hash))
    executeUpdate .increaseUseCount
    return sblock.map StorageBlock.release
  else
    match sblock.filter fun b => b.useCount = 1 with
    | some b =>
      bind .updateBlockHash 1 (.blob (some hash))
      bind .updateBlockHash 2 (.int b.storageBlockNum)
      executeUpdate .updateBlockHash
      return sblock
    | none =>
      bind .insertBlockHash 1 (.blob (some hash))
      executeUpdate .insertBlockHash
      return sblock.map StorageBlock.release

/-- The end of the transaction of `replaceStorageBlock`. -/
def mapFileBlock (ino fileBlockNum : ℕ) (hash : H) (sblock : Option (StorageBlock bits H)) :
    Method H PUnit := do
  bind .replaceFileBlock 1 (.int ino)
  bind .replaceFileBlock 2 (.int fileBlockNum)
  bind .replaceFileBlock 3 (.blob (some hash))
  executeUpdate .replaceFileBlock
  match sblock with
  | some b =>
    bind .setUseCount 1 (.int b.useCount)
    bind .setUseCount 2 (.int b.storageBlockNum)
    executeUpdate .setUseCount
  | none => return ⟨⟩

def replaceStorageBlock (ino : ℕ) (fblock : BlockInfo H) (sblock : Option (StorageBlock bits H))
    (hash : H) : Method H Bool := do
  transaction
  catchException
    (do
      bind .selectBlockHash 1 (.blob (some hash))
      let row ← next .selectBlockHash
      let sblock ← countHash sblock hash row.isSome
      mapFileBlock ino fblock.fileBlockNum hash sblock
      transaction
      reset .selectBlockHash
      return row.isSome)
    (do
      reset .selectBlockHash
      transaction
      throw .exception)

/-- The `block_info` that the handle kept for the block, or one read from the tables. -/
def extractBlock (cfg : Config bits H) (fi : FileInfo H) (fileBlockNum : ℕ) :
    Method H (BlockInfo H) :=
  match fi.blocks fileBlockNum with
  | some gp => return gp
  | none => loadFileBlock cfg fi (.new fileBlockNum)

def releaseStorageBlock (cfg : Config bits H) (fi : FileInfo H) (fileBlockNum : ℕ) :
    Method H ℕ := do
  transaction
  catchException
    (do
      let fileBlock ← extractBlock cfg fi fileBlockNum
      bind .deleteFileBlock 1 (.int fi.stIno)
      bind .deleteFileBlock 2 (.int fileBlockNum)
      executeUpdate .deleteFileBlock
      let hash ← deref fileBlock.hash
      bind .decreaseUseCount 1 hash
      executeUpdate .decreaseUseCount
      transaction
      return fileBlock.storageBlockNum)
    (do
      transaction
      throw .exception)

end Prepared

/-- A call of a method of `DataBase` that uses a cached statement. -/
inductive DbCall (bits : ℕ) (H : Type) where
  | getByPath (filename : Path)
  | create (filename : Path)
  | rename (oldPath newPath : Path)
  | ftruncate (fi : FileInfo H) (newSize : ℤ)
  | loadFileBlock (fi : FileInfo H) (block : BlockInfo H)
  | replaceStorageBlock (ino : ℕ) (fblock : BlockInfo H) (sblock : Option (StorageBlock bits H))
      (hash : H)
  | releaseStorageBlock (fi : FileInfo H) (fileBlockNum : ℕ)

/-- The calls on statements that the method issues. -/
def DbCall.method (cfg : Config bits H) : DbCall bits H → Method H PUnit
  | .getByPath filename => discard (Prepared.getByPath filename)
  | .create filename => Prepared.create filename
  | .rename oldPath newPath => Prepared.rename oldPath newPath
  | .ftruncate fi newSize => Prepared.ftruncate fi newSize
  | .loadFileBlock fi block => discard (Prepared.loadFileBlock cfg fi block)
  | .replaceStorageBlock ino fblock sblock hash =>
    discard (Prepared.replaceStorageBlock ino fblock sblock hash)
  | .releaseStorageBlock fi fileBlockNum =>
    discard (Prepared.releaseStorageBlock cfg fi fileBlockNum)

/-- The methods one after the other: an exception ends the request, not the process. -/
def methods (cfg : Config bits H) : List (DbCall bits H) → Method H PUnit
  | [] => return ⟨⟩
  | c :: cs => do
    Prepared.catchException (c.method cfg) (return ⟨⟩)
    methods cfg cs

/-- All calls on statements of a run of methods. -/
def issued (cfg : Config bits H) (cs : List (DbCall bits H)) (results : List (StepResult H)) :
    List (StmtCall H) :=
  (exec (methods cfg cs) ⟨[], results⟩).2.calls

/-! ### What the calls keep -/

/-- Every statement is bound to what it was given. -/
def Statements.Own (s : Statements H) : Prop := ∀ st, (s st).bound = (s st).passed

/-- Every statement was reset after its last execution, or that execution failed; the given
statement may also stand on a row or on completion. -/
def Statements.IdleBut (s : Statements H) (o : Option Stmt) : Prop :=
  ∀ st, some st ≠ o → (s st).state = .ready ∨ (s st).state = .failed

/-- The guard of a run: a `bind*` call on a statement whose last execution failed passes the
value that the statement is bound to already. -/
def KeepsFailed (s : Statements H) : StmtCall H → Prop
  | .bind st index v => (s st).state = .failed → (s st).bound index = some v
  | _ => True

section

omit [DecidableEq H]

theorem Statements.IdleBut.mono {s : Statements H} (h : s.IdleBut none) (o : Option Stmt) :
    s.IdleBut o := fun st _ => h st (by simp)

theorem Statements.IdleBut.update {s : Statements H} {o : Option Stmt} (h : s.IdleBut o)
    {st : Stmt} {p : PreparedStmt H}
    (hp : some st ≠ o → p.state = .ready ∨ p.state = .failed) :
    Statements.IdleBut (Function.update s st p) o := by
  intro st' hne
  by_cases hst : st' = st
  · subst hst
    simpa using hp hne
  · simpa [hst] using h st' hne

theorem Statements.Own.update {s : Statements H} (h : s.Own) {st : Stmt} {p : PreparedStmt H}
    (hp : p.bound = p.passed) : Statements.Own (Function.update s st p) := by
  intro st'
  by_cases hst : st' = st
  · subst hst
    simpa using hp
  · simpa [hst] using h st'

/-- A `bind*` call on an idle statement that meets the guard binds what it passes. -/
theorem PreparedStmt.bind_own {p : PreparedStmt H} (hown : p.bound = p.passed)
    (hidle : p.state = .ready ∨ p.state = .failed) {index : ℕ} {v : Value H}
    (hv : p.state = .failed → p.bound index = some v) :
    (p.bind index v).bound = (p.bind index v).passed := by
  show (if p.state = .ready then Function.update p.bound index (some v) else p.bound) =
    Function.update p.passed index (some v)
  rcases hidle with hready | hfailed
  · rw [if_pos hready, hown]
  · rw [if_neg (by simp [hfailed]), ← hown, ← hv hfailed, Function.update_eq_self]

theorem PreparedStmt.execution_own {p : PreparedStmt H} (hown : p.bound = p.passed)
    {x : Execution H} (hx : p.execution = some x) : x.used = x.passed := by
  unfold execution at hx
  split at hx
  · cases hx
  · cases hx
    exact hown

@[simp] theorem PreparedStmt.executeUpdate_bound (p : PreparedStmt H) (res : StepResult H) :
    (p.executeUpdate res).bound = p.bound := by
  cases res <;> rfl

@[simp] theorem PreparedStmt.executeUpdate_passed (p : PreparedStmt H) (res : StepResult H) :
    (p.executeUpdate res).passed = p.passed := by
  cases res <;> rfl

theorem PreparedStmt.executeUpdate_idle (p : PreparedStmt H) (res : StepResult H) :
    (p.executeUpdate res).state = .ready ∨ (p.executeUpdate res).state = .failed := by
  cases res <;> simp [executeUpdate, step, reset]

end

omit [DecidableEq H] in
/-- A call keeps the bindings right and starts only executions with the values passed, when
it meets the guard and binds idle statements only. -/
theorem stmtStep_own {s s' : Statements H} {c : StmtCall H} {x : Option (Execution H)}
    (hstep : stmtStep s c = .ok (s', x)) (hown : s.Own) (hok : KeepsFailed s c)
    (hidle : ∀ st index v, c = .bind st index v →
      (s st).state = .ready ∨ (s st).state = .failed) :
    s'.Own ∧ ∀ y, x = some y → y.used = y.passed := by
  cases c with
  | bind st index v =>
    cases hstep
    exact ⟨hown.update (PreparedStmt.bind_own (hown st) (hidle st index v rfl) hok), by simp⟩
  | next st res =>
    cases hstep
    exact ⟨hown.update (hown st), fun y => PreparedStmt.execution_own (hown st)⟩
  | executeUpdate st res =>
    cases hstep
    refine ⟨hown.update ?_, fun y => PreparedStmt.execution_own (hown st)⟩
    simpa using hown st
  | reset st =>
    cases hstep
    exact ⟨hown.update (hown st), by simp⟩

/-- The calls issued so far leave the statements idle but for `o`, and when they met the guard,
the bindings and all executions were right. -/
def Issue.At (o : Option Stmt) (w : Issue H) : Prop :=
  ∃ s xs, run stmtStep (prepareStatements H) w.calls = .ok (s, xs) ∧ s.IdleBut o ∧
    (Meets stmtStep KeepsFailed (prepareStatements H) w.calls →
      s.Own ∧ ∀ x, some x ∈ xs → x.used = x.passed)

section

omit [DecidableEq H]

theorem Issue.At.mono {w : Issue H} (h : w.At none) (o : Option Stmt) : w.At o := by
  obtain ⟨s, xs, hrun, hidle, hown⟩ := h
  exact ⟨s, xs, hrun, hidle.mono o, hown⟩

theorem Issue.At.results {o : Option Stmt} {w : Issue H} (h : w.At o)
    (results : List (StepResult H)) : Issue.At o { w with results := results } := h

/-- One more call. -/
theorem Issue.At.issue {o o' : Option Stmt} {w : Issue H} (h : w.At o) (c : StmtCall H)
    (hbind : ∀ st index v, c = .bind st index v → some st ≠ o)
    (hidle : ∀ s s' x, s.IdleBut o → stmtStep s c = .ok (s', x) → s'.IdleBut o') :
    Issue.At o' { w with calls := w.calls ++ [c] } := by
  obtain ⟨s, xs, hrun, hs, hown⟩ := h
  obtain ⟨s', x, hstep⟩ : ∃ s' x, stmtStep s c = .ok (s', x) := by
    cases c <;> exact ⟨_, _, rfl⟩
  have hlast : run stmtStep s [c] = .ok (s', [x]) := run_cons_ok.mpr ⟨s', x, [], hstep, rfl, rfl⟩
  refine ⟨s', xs ++ [x], run_append_ok.mpr ⟨s, xs, [x], hrun, hlast, rfl⟩,
    hidle s s' x hs hstep, fun hmeets => ?_⟩
  obtain ⟨hs₀, hxs⟩ := hown hmeets.left
  have hguard : KeepsFailed s c := (hmeets.append hrun).1
  obtain ⟨hs', hx⟩ := stmtStep_own hstep hs₀ hguard fun st index v hc =>
    hs st (hbind st index v hc)
  refine ⟨hs', fun y hy => ?_⟩
  rcases List.mem_append.mp hy with hmem | hmem
  · exact hxs y hmem
  · exact hx y (List.mem_singleton.mp hmem).symm

end

/-! ### The methods, one rule each -/

namespace Prepared

variable {o : Option Stmt}

section

omit [DecidableEq H]

theorem bind_spec (st : Stmt) (index : ℕ) (v : Value H) (hne : some st ≠ o) :
    Triple (Issue.At o) (bind st index v) (fun _ => Issue.At o) (fun _ => Issue.At o) := by
  refine Triple.modify _ fun w hw => hw.issue _ ?_ ?_
  · intro st' index' v' hc
    cases hc
    exact hne
  · intro s s' x hidle hstep
    cases hstep
    exact hidle.update (hidle st)

theorem reset_spec (st : Stmt) :
    Triple (Issue.At (H := H) (some st)) (reset st) (fun _ => Issue.At none)
      (fun _ => Issue.At none) := by
  refine Triple.modify _ fun w hw => hw.issue _ (by simp) ?_
  intro s s' x hidle hstep
  cases hstep
  intro st' _
  by_cases hst : st' = st
  · subst hst
    simp [PreparedStmt.reset]
  · simpa [hst] using hidle st' (by simpa using hst)

theorem stepResult_spec {E : Thrown → Issue H → Prop} :
    Triple (Issue.At o) stepResult (fun _ => Issue.At o) E := fun _ hw => hw.results _

/-- `next` on an idle statement leaves it on a row or on completion, or throws and leaves it
failed. -/
theorem next_spec (st : Stmt) :
    Triple (Issue.At (H := H) none) (next st) (fun _ => Issue.At (some st))
      (fun _ => Issue.At none) := by
  refine Triple.bind stepResult_spec fun res => ?_
  cases res with
  | error =>
    refine Triple.bind (Q := fun _ => Issue.At none) (Triple.modify _ fun w hw =>
      hw.issue _ (by simp) ?_) fun _ => Triple.throw _ fun _ h => h
    intro s s' x hidle hstep
    cases hstep
    exact hidle.update fun _ => .inr rfl
  | row columns =>
    refine Triple.bind (Q := fun _ => Issue.At (some st)) (Triple.modify _ fun w hw =>
      hw.issue _ (by simp) ?_) fun _ => Triple.pure _ fun _ h => h
    intro s s' x hidle hstep
    cases hstep
    exact (hidle.mono _).update fun hne => absurd rfl hne
  | done =>
    refine Triple.bind (Q := fun _ => Issue.At (some st)) (Triple.modify _ fun w hw =>
      hw.issue _ (by simp) ?_) fun _ => Triple.pure _ fun _ h => h
    intro s s' x hidle hstep
    cases hstep
    exact (hidle.mono _).update fun hne => absurd rfl hne

/-- `executeUpdate` leaves its statement reset or failed. -/
theorem executeUpdate_spec (st : Stmt) :
    Triple (Issue.At (H := H) o) (executeUpdate st) (fun _ => Issue.At o)
      (fun _ => Issue.At o) := by
  refine Triple.bind stepResult_spec fun res => Triple.bind (Q := fun _ => Issue.At o)
    (Triple.modify _ fun w hw => hw.issue _ (by simp) ?_) fun _ => ?_
  · intro s s' x hidle hstep
    cases hstep
    exact hidle.update fun _ => PreparedStmt.executeUpdate_idle _ _
  · cases res with
    | error => exact Triple.throw _ fun _ h => h
    | row columns => exact Triple.pure _ fun _ h => h
    | done => exact Triple.pure _ fun _ h => h

theorem transaction_spec :
    Triple (Issue.At (H := H) o) transaction (fun _ => Issue.At o) (fun _ => Issue.At o) := by
  refine Triple.bind stepResult_spec fun res => ?_
  cases res with
  | error => exact Triple.throw _ fun _ h => h
  | row columns => exact Triple.pure _ fun _ h => h
  | done => exact Triple.pure _ fun _ h => h

theorem catchException_spec {α : Type} {P : Issue H → Prop} {Q : α → Issue H → Prop}
    {E E' : Thrown → Issue H → Prop} {body handler : Method H α} (hbody : Triple P body Q E)
    (hhandler : Triple (E .exception) handler Q E') (hcrash : ∀ w, E .crash w → E' .crash w) :
    Triple P (catchException body handler) Q E' := by
  refine Triple.tryCatch hbody fun e => ?_
  cases e with
  | exception => exact hhandler
  | crash => exact Triple.throw _ hcrash

end

/-- How a method leaves the statements when it ends early; after a crash nobody uses them. -/
def Ends : Thrown → Issue H → Prop
  | .exception, w => w.At none
  | .crash, w => ∃ o, w.At o

omit [DecidableEq H] in
theorem ends_of_at (e : Thrown) {w : Issue H} (h : w.At none) : Ends e w := by
  cases e with
  | exception => exact h
  | crash => exact ⟨none, h⟩

/-- What a method does to the statements: it finds them idle and leaves them idle. -/
abbrev Tidy {α : Type} (m : Method H α) : Prop :=
  Triple (Issue.At none) m (fun _ => Issue.At none) Ends

section

omit [DecidableEq H]

theorem Tidy.of_spec {α : Type} {m : Method H α}
    (hm : Triple (Issue.At none) m (fun _ => Issue.At none) (fun _ => Issue.At none)) : Tidy m :=
  hm.weaken (fun _ h => h) (fun _ _ h => h) fun e _ h => ends_of_at e h

theorem tidy_pure {α : Type} (a : α) : Tidy (pure a : Method H α) := Triple.pure a fun _ h => h

theorem getByPath_tidy (filename : Path) : Tidy (getByPath (H := H) filename) := by
  refine Tidy.of_spec <| Triple.bind (bind_spec _ _ _ (by simp)) fun _ =>
    Triple.bind (next_spec _) fun row => Triple.bind (reset_spec _) fun _ => ?_
  cases row with
  | none => exact Triple.pure _ fun _ h => h
  | some columns => exact Triple.pure _ fun _ h => h

theorem create_tidy (filename : Path) : Tidy (create (H := H) filename) := by
  refine Triple.ite (fun _ => ?_) fun _ => ?_
  · exact Triple.bind (getByPath_tidy _) fun _ => tidy_pure _
  · refine Triple.bind (getByPath_tidy _) fun dir => Triple.ite (fun _ => tidy_pure _) fun _ => ?_
    exact Triple.bind (getByPath_tidy _) fun _ => tidy_pure _

theorem rename_tidy (oldPath newPath : Path) : Tidy (rename (H := H) oldPath newPath) := by
  refine Triple.bind (getByPath_tidy _) fun _ => Triple.ite (fun _ => tidy_pure _) fun _ => ?_
  refine Triple.bind (getByPath_tidy _) fun _ => Triple.ite (fun _ => tidy_pure _) fun _ => ?_
  exact Triple.bind (getByPath_tidy _) fun _ => tidy_pure _

end

section

omit [DecidableEq H]

theorem ftruncate_tidy (fi : FileInfo H) (newSize : ℤ) : Tidy (ftruncate fi newSize) := by
  refine Triple.ite (fun _ => tidy_pure _) fun _ => ?_
  exact Tidy.of_spec <| Triple.bind (bind_spec _ _ _ (by simp)) fun _ =>
    Triple.bind (bind_spec _ _ _ (by simp)) fun _ => executeUpdate_spec _

theorem loadFileBlock_tidy (cfg : Config bits H) (fi : FileInfo H) (block : BlockInfo H) :
    Tidy (loadFileBlock cfg fi block) := by
  refine Triple.ite (fun _ => tidy_pure _) fun _ => ?_
  refine Tidy.of_spec <| Triple.bind (bind_spec _ _ _ (by simp)) fun _ =>
    Triple.bind (bind_spec _ _ _ (by simp)) fun _ => Triple.bind (next_spec _) fun row =>
      Triple.bind (reset_spec _) fun _ => ?_
  cases row with
  | none => exact Triple.pure _ fun _ h => h
  | some columns => exact Triple.pure _ fun _ h => h

/-- The updates of `replaceStorageBlock` run while `stSelectBlockHash` stands on its row. -/
theorem countHash_spec (sblock : Option (StorageBlock bits H)) (hash : H) (present : Bool) :
    Triple (Issue.At (some .selectBlockHash)) (countHash sblock hash present)
      (fun _ => Issue.At (some .selectBlockHash)) (fun _ => Issue.At (some .selectBlockHash)) := by
  refine Triple.ite (fun _ => ?_) fun _ => ?_
  · exact Triple.bind (bind_spec _ _ _ (by simp)) fun _ =>
      Triple.bind (executeUpdate_spec _) fun _ => Triple.pure _ fun _ h => h
  · cases sblock.filter fun b => b.useCount = 1 with
    | some b =>
      exact Triple.bind (bind_spec _ _ _ (by simp)) fun _ =>
        Triple.bind (bind_spec _ _ _ (by simp)) fun _ =>
          Triple.bind (executeUpdate_spec _) fun _ => Triple.pure _ fun _ h => h
    | none =>
      exact Triple.bind (bind_spec _ _ _ (by simp)) fun _ =>
        Triple.bind (executeUpdate_spec _) fun _ => Triple.pure _ fun _ h => h

theorem mapFileBlock_spec (ino fileBlockNum : ℕ) (hash : H)
    (sblock : Option (StorageBlock bits H)) :
    Triple (Issue.At (some .selectBlockHash)) (mapFileBlock ino fileBlockNum hash sblock)
      (fun _ => Issue.At (some .selectBlockHash)) (fun _ => Issue.At (some .selectBlockHash)) := by
  refine Triple.bind (bind_spec _ _ _ (by simp)) fun _ =>
    Triple.bind (bind_spec _ _ _ (by simp)) fun _ =>
      Triple.bind (bind_spec _ _ _ (by simp)) fun _ =>
        Triple.bind (executeUpdate_spec _) fun _ => ?_
  cases sblock with
  | none => exact Triple.pure _ fun _ h => h
  | some b =>
    exact Triple.bind (bind_spec _ _ _ (by simp)) fun _ =>
      Triple.bind (bind_spec _ _ _ (by simp)) fun _ => executeUpdate_spec _

end

section

omit [DecidableEq H]

theorem replaceStorageBlock_tidy (ino : ℕ) (fblock : BlockInfo H)
    (sblock : Option (StorageBlock bits H)) (hash : H) :
    Tidy (replaceStorageBlock ino fblock sblock hash) := by
  refine Triple.bind (Tidy.of_spec transaction_spec) fun _ => catchException_spec
    (E := fun _ => Issue.At (some .selectBlockHash)) ?_ ?_ fun w h => ⟨_, h⟩
  · refine Triple.bind ((bind_spec _ _ _ (by simp)).weaken (fun _ h => h) (fun _ _ h => h)
      fun _ _ h => h.mono _) fun _ => ?_
    refine Triple.bind ((next_spec _).weaken (fun _ h => h) (fun _ _ h => h)
      fun _ _ h => h.mono _) fun row => ?_
    refine Triple.bind (countHash_spec _ _ _) fun sblock =>
      Triple.bind (mapFileBlock_spec _ _ _ _) fun _ => Triple.bind transaction_spec fun _ => ?_
    exact Triple.bind ((reset_spec _).weaken (fun _ h => h) (fun _ _ h => h)
      fun _ _ h => h.mono _) fun _ => Triple.pure _ fun _ h => h
  · exact Triple.bind ((reset_spec _).weaken (fun _ h => h) (fun _ _ h => h)
      fun e _ h => ends_of_at e h) fun _ => Triple.bind (Tidy.of_spec transaction_spec) fun _ =>
        Triple.throw _ fun _ h => ends_of_at _ h

theorem deref_tidy (hash : HashPtr H) : Tidy (deref hash) := by
  cases hash with
  | null => exact Triple.throw _ fun _ h => ends_of_at _ h
  | empty => exact tidy_pure _
  | digest h => exact tidy_pure _

theorem extractBlock_tidy (cfg : Config bits H) (fi : FileInfo H) (fileBlockNum : ℕ) :
    Tidy (extractBlock cfg fi fileBlockNum) := by
  unfold extractBlock
  cases fi.blocks fileBlockNum with
  | some gp => exact tidy_pure _
  | none => exact loadFileBlock_tidy _ _ _

theorem releaseStorageBlock_tidy (cfg : Config bits H) (fi : FileInfo H) (fileBlockNum : ℕ) :
    Tidy (releaseStorageBlock cfg fi fileBlockNum) := by
  refine Triple.bind (Tidy.of_spec transaction_spec) fun _ => catchException_spec
    (E := Ends) ?_ ?_ fun w h => h
  · have hbind : ∀ st index v, Tidy (bind (H := H) st index v) := fun st index v =>
      Tidy.of_spec (bind_spec _ _ _ (by simp))
    have hupdate : ∀ st, Tidy (executeUpdate (H := H) st) := fun st =>
      Tidy.of_spec (executeUpdate_spec _)
    refine Triple.bind (extractBlock_tidy _ _ _) fun fileBlock => Triple.bind (hbind _ _ _) fun _ =>
      Triple.bind (hbind _ _ _) fun _ => Triple.bind (hupdate _) fun _ => ?_
    refine Triple.bind (deref_tidy _) fun hash => Triple.bind (hbind _ _ _) fun _ =>
      Triple.bind (hupdate _) fun _ => Triple.bind (Tidy.of_spec transaction_spec) fun _ => ?_
    exact tidy_pure _
  · exact Triple.bind (Tidy.of_spec transaction_spec) fun _ =>
      Triple.throw _ fun _ h => ends_of_at _ h

end

end Prepared

section

omit [DecidableEq H]

theorem discard_tidy {α : Type} {m : Method H α} (hm : Prepared.Tidy m) :
    Prepared.Tidy (discard m) :=
  Triple.bind hm fun _ => Prepared.tidy_pure _

theorem DbCall.method_tidy (cfg : Config bits H) (c : DbCall bits H) :
    Prepared.Tidy (c.method cfg) := by
  cases c with
  | getByPath filename => exact discard_tidy (Prepared.getByPath_tidy _)
  | create filename => exact Prepared.create_tidy _
  | rename oldPath newPath => exact Prepared.rename_tidy _ _
  | ftruncate fi newSize => exact Prepared.ftruncate_tidy _ _
  | loadFileBlock fi block => exact discard_tidy (Prepared.loadFileBlock_tidy _ _ _)
  | replaceStorageBlock ino fblock sblock hash =>
    exact discard_tidy (Prepared.replaceStorageBlock_tidy _ _ _ _)
  | releaseStorageBlock fi fileBlockNum =>
    exact discard_tidy (Prepared.releaseStorageBlock_tidy _ _ _)

theorem methods_tidy (cfg : Config bits H) (cs : List (DbCall bits H)) :
    Prepared.Tidy (methods cfg cs) := by
  induction cs with
  | nil => exact Prepared.tidy_pure _
  | cons c cs ih =>
    exact Triple.bind (Prepared.catchException_spec (c.method_tidy cfg) (Prepared.tidy_pure _)
      fun _ h => h) fun _ => ih

/-- All that the methods issued, whatever SQLite returned. -/
theorem issued_at (cfg : Config bits H) (cs : List (DbCall bits H))
    (results : List (StepResult H)) :
    ∃ o w, Issue.At o w ∧ w.calls = issued cfg cs results := by
  have hstart : Issue.At (H := H) none ⟨[], results⟩ :=
    ⟨_, [], rfl, fun _ _ => .inl rfl, fun _ => ⟨fun _ => rfl, by simp⟩⟩
  have hend := methods_tidy cfg cs ⟨[], results⟩ hstart
  unfold issued
  rcases hr : exec (methods cfg cs) ⟨[], results⟩ with ⟨e | u, w⟩
  · rw [hr] at hend
    cases e with
    | exception => exact ⟨none, w, hend, rfl⟩
    | crash =>
      obtain ⟨o, ho⟩ := hend
      exact ⟨o, w, ho, rfl⟩
  · rw [hr] at hend
    exact ⟨none, w, hend, rfl⟩

/-- **Every execution of a cached statement uses the values it was given**, in every run of
methods in which no `bind*` call passes a new value to a statement whose last execution failed
and which was not reset since. -/
theorem executions_use_passed (cfg : Config bits H) (cs : List (DbCall bits H))
    (results : List (StepResult H))
    (hok : Meets stmtStep KeepsFailed (prepareStatements H) (issued cfg cs results)) :
    ∃ s xs, run stmtStep (prepareStatements H) (issued cfg cs results) = .ok (s, xs) ∧
      ∀ x, some x ∈ xs → x.used = x.passed := by
  obtain ⟨o, w, ⟨s, xs, hrun, -, hown⟩, hcalls⟩ := issued_at cfg cs results
  rw [hcalls] at hrun hown
  exact ⟨s, xs, hrun, (hown hok).2⟩

end

/-- A lookup that failed is tried again, and then another path is looked up. -/
theorem executions_use_passed_retry :
    ∃ s xs, run stmtStep (prepareStatements (List UInt8))
        (issued (plainConfig 0) [.getByPath ['/', 'a'], .getByPath ['/', 'a'],
          .getByPath ['/', 'b']] [.error]) = .ok (s, xs) ∧
      ∀ x, some x ∈ xs → x.used = x.passed :=
  executions_use_passed _ _ _ (by
    show Meets _ _ _ [StmtCall.bind .getByPath 1 (.text ['/', 'a']), .next .getByPath .error,
      .bind .getByPath 1 (.text ['/', 'a']), .next .getByPath .done, .reset .getByPath,
      .bind .getByPath 1 (.text ['/', 'b']), .next .getByPath .done, .reset .getByPath]
    simp [Meets, stmtStep, KeepsFailed, prepareStatements, PreparedStmt.new, PreparedStmt.bind,
      PreparedStmt.step, PreparedStmt.reset])

/-- The lookup of `/a` fails; the lookup of `/b` then asks for `/a` again. -/
theorem failed_lookup_keeps_path :
    ∃ s xs x, run stmtStep (prepareStatements (List UInt8))
        (issued (plainConfig 0) [.getByPath ['/', 'a'], .getByPath ['/', 'b']] [.error]) =
          .ok (s, xs) ∧
      some x ∈ xs ∧ x.used 1 = some (.text ['/', 'a']) ∧ x.passed 1 = some (.text ['/', 'b']) :=
  ⟨_, [none, _, none, some _, none], _, rfl, .tail _ (.tail _ (.tail _ (.head _))), rfl, rfl⟩

end Wwdedup
