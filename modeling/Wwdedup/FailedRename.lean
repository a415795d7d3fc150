import Wwdedup.Rename
import Wwdedup.Lib.Throwing

/-!
# A `rename` that fails

`rename` is a DELETE and a row of UPDATEs without a transaction around them.  `RenameStmt` names
its statements, the environment says which of them fail, and an UPDATE that would give two rows
the same path fails by itself.  What an exception leaves behind are the rows as the statements
before it made them (`Failing.rename_left`).
-/

namespace Wwdedup

open Throwing

variable {bits : ℕ} {H : Type} [DecidableEq H]

/-- The statements of `rename`; those of its loop with the number of the round. -/
inductive RenameStmt where
  | lookupOld
  | lookupDest
  | lookupNew
  | count
  | delete
  | select (i : ℕ)
  | update (i : ℕ)
  | updateOld
  deriving DecidableEq, Repr

abbrev Renaming (H α : Type) := ExceptT RenameStmt (StateM (Db H)) α

namespace Failing

variable (fails : RenameStmt → Bool)

/-- `getByPath`. -/
def getByPath (p : RenameStmt) (path : Path) : Renaming H (FileInfo H) := do
  point fails id p
  let db ← get
  return db.getByPath path

/-- An UPDATE of the path of a row. -/
def updateFilePath (p : RenameStmt) (path : Path) (depth : ℤ → ℤ) (id : ℕ) :
    Renaming H PUnit := do
  point fails (fun p => p) p
  let db ← get
  match db.updateFilePath path depth id with
  | none => throw p
  | some db => set db

/-- `remove`. -/
def remove (path : Path) : Renaming H PUnit := do
  point fails id .delete
  modify fun db => (db.remove path).1

/-- The loop of `rename`, from the round `i` on. -/
def renameBelow (oldPath newPath : Path) (depthDiff : ℤ) : ℕ → List FileRow → Renaming H PUnit
  | i, [] => point fails id (.select i)
  | i, r :: rows => do
    point fails id (.select i)
    updateFilePath fails (.update i) (newPath ++ r.path.drop oldPath.length) (· + depthDiff) r.id
    renameBelow oldPath newPath depthDiff (i + 1) rows

/-- What `rename` asks of a target that exists: 0, or the error. -/
def checkTarget (oldPath newPath : Path) (oldFile newFile : FileInfo H) : Renaming H ℤ := do
  if sIsdir oldFile.stMode then
    if sIsdir newFile.stMode then
      point fails id .count
      let db ← get
      if !db.dirEmpty newFile then return -enotempty
      else if oldPath.isPrefixOf newPath then return -einval
      else return 0
    else return -enotdir
  else if sIsdir newFile.stMode then return -eisdir
  else return 0

/-- The part of `rename` for a directory. -/
def moveBelow (oldPath newPath : Path) (oldFile destDir : FileInfo H) : Renaming H PUnit := do
  if sIsdir oldFile.stMode then
    let db ← get
    renameBelow fails oldPath newPath (destDir.depth + 1 - oldFile.depth) 0 (db.selected oldPath)
  else return ⟨⟩

/-- The UPDATEs of `rename`. -/
def move (oldPath newPath : Path) (oldFile destDir : FileInfo H) : Renaming H ℤ := do
  moveBelow fails oldPath newPath oldFile destDir
  updateFilePath fails .updateOld newPath (fun _ => destDir.depth + 1) oldFile.stIno
  return 0

/-- `DataBase::rename`. -/
def rename (oldPath newPath : Path) : Renaming H ℤ := do
  let oldFile ← getByPath fails .lookupOld oldPath
  if oldFile.stIno = 0 then return -enoent
  else
    let destDir ← getByPath fails .lookupDest (branchPath newPath)
    if destDir.stIno = 0 then return -enoent
    else if !sIsdir destDir.stMode then return -enotdir
    else
      let newFile ← getByPath fails .lookupNew newPath
      if newFile.stIno ≠ 0 then
        let e ← checkTarget fails oldPath newPath oldFile newFile
        if e ≠ 0 then return e
        else
          remove fails newPath
          move fails oldPath newPath oldFile destDir
      else move fails oldPath newPath oldFile destDir

end Failing

/-- The statements after the DELETE. -/
def RenameStmt.moves : RenameStmt → Bool
  | .select _ => true
  | .update _ => true
  | .updateOld => true
  | _ => false

/-- The rows that the loop has updated when it comes to the statement. -/
def RenameStmt.passed (rows : List FileRow) : RenameStmt → List FileRow
  | .select i => rows.take i
  | .update i => rows.take i
  | .updateOld => rows
  | _ => []

namespace Db

/-- The tables without the row of the new path. -/
def cleared (db : Db H) (new : Path) : Db H :=
  if (db.getByPath new).stIno ≠ 0 then (db.remove new).1 else db

/-- The rows of the loop: none for a file. -/
def below (db : Db H) (old new : Path) : List FileRow :=
  if sIsdir (db.getByPath old).stMode then (db.cleared new).selected old else []

/-- The difference of the depths. -/
def depthDiff (db : Db H) (old new : Path) : ℤ :=
  (db.getByPath (branchPath new)).depth + 1 - (db.getByPath old).depth

end Db

namespace Failing

/-- What an exception of `rename` leaves. -/
def Left (db : Db H) (old new : Path) (p : RenameStmt) (db' : Db H) : Prop :=
  if p.moves then
    Db.renameBelow old new (db.depthDiff old new) (db.cleared new)
      (p.passed (db.below old new)) = (db', true)
  else db' = db

variable {fails : RenameStmt → Bool} {db : Db H} {old new : Path}

section

omit [DecidableEq H]

theorem updateFilePath_exec (p : RenameStmt) (path : Path) (depth : ℤ → ℤ) (id : ℕ) :
    exec (updateFilePath fails p path depth id) db =
      match fails p, db.updateFilePath path depth id with
      | false, some db' => (.ok ⟨⟩, db')
      | _, _ => (.error p, db) := by
  rw [updateFilePath, exec_point_bind, exec_get_bind]
  cases fails p with
  | true => rfl
  | false =>
    rw [if_neg Bool.false_ne_true]
    cases db.updateFilePath path depth id with
    | none => rfl
    | some db' => rfl

/-- The loop fails with the rows before the failing one rewritten, or rewrites them all. -/
theorem renameBelow_exec (d : ℤ) (i : ℕ) (rows : List FileRow) :
    match exec (renameBelow fails old new d i rows) db with
    | (.ok _, db') => Db.renameBelow old new d db rows = (db', true)
    | (.error p, db') => ∃ k, (p = .select (i + k) ∨ p = .update (i + k)) ∧
        Db.renameBelow old new d db (rows.take k) = (db', true) := by
  induction rows generalizing i db with
  | nil =>
    rw [renameBelow]
    by_cases h : fails (.select i) = true
    · rw [point, if_pos h]
      exact ⟨0, .inl rfl, rfl⟩
    · rw [point, if_neg h]
      rfl
  | cons r rows ih =>
    rw [renameBelow, exec_point_bind]
    by_cases h : fails (.select i) = true
    · rw [if_pos h]
      exact ⟨0, .inl rfl, rfl⟩
    · rw [if_neg h, exec_bind, updateFilePath_exec]
      cases hupd : db.updateFilePath (new ++ r.path.drop old.length) (· + d) r.id with
      | none =>
        have hpair : (match fails (.update i), (none : Option (Db H)) with
            | false, some db' => (Except.ok PUnit.unit, db')
            | _, _ => (Except.error (RenameStmt.update i), db)) = (.error (.update i), db) := by
          cases fails (.update i) <;> rfl
        rw [hpair]
        exact ⟨0, .inr rfl, rfl⟩
      | some db₁ =>
        cases fails (.update i) with
        | true => exact ⟨0, .inr rfl, rfl⟩
        | false =>
          have hrest := @ih db₁ (i + 1)
          dsimp only at hrest ⊢
          revert hrest
          rcases exec (renameBelow fails old new d (i + 1) rows) db₁ with ⟨p | _, db'⟩
          · rintro ⟨k, hp, htake⟩
            refine ⟨k + 1, ?_, ?_⟩
            · rw [show i + (k + 1) = i + 1 + k by omega]
              exact hp
            · rw [List.take_succ_cons, Db.renameBelow, hupd]
              exact htake
          · intro hall
            show Db.renameBelow old new d db (r :: rows) = (db', true)
            rw [Db.renameBelow, hupd]
            exact hall

/-- A statement that only reads leaves the tables. -/
theorem getByPath_triple (p : RenameStmt) (hp : p.moves = false) (path : Path) :
    Triple (fun db' => db' = db) (getByPath fails p path)
      (fun fi db' => fi = db.getByPath path ∧ db' = db) (Left db old new) := by
  refine Triple.bind (Q := fun _ db' => db' = db) (Triple.point (fun _ h => h) ?_) fun _ => ?_
  · rintro _ rfl
    rw [Left, id, hp]
    rfl
  · refine Triple.get_bind ?_
    rintro _ rfl
    exact Triple.pure _ fun _ h => ⟨by rw [← h], h⟩

theorem renameCheck_of_ne {e : ℤ} (hold : (db.getByPath old).stIno ≠ 0)
    (hdest : (db.getByPath (branchPath new)).stIno ≠ 0)
    (hdir : sIsdir (db.getByPath (branchPath new)).stMode = true)
    (hnew : (db.getByPath new).stIno ≠ 0)
    (he : e = if sIsdir (db.getByPath old).stMode then
        if sIsdir (db.getByPath new).stMode then
          if !db.dirEmpty (db.getByPath new) then -enotempty
          else if old.isPrefixOf new then -einval else 0
        else -enotdir
      else if sIsdir (db.getByPath new).stMode then -eisdir else 0) :
    if e = 0 then db.renameCheck old new = .ok (db.getByPath old, db.getByPath (branchPath new))
    else db.renameCheck old new = .error e := by
  subst he
  unfold Db.renameCheck
  dsimp only
  rw [if_neg hold, if_neg hdest]
  cases hod : sIsdir (db.getByPath old).stMode <;> cases sIsdir (db.getByPath new).stMode <;>
    cases db.dirEmpty (db.getByPath new) <;> cases old.isPrefixOf new <;>
    simp [hdir, hnew, enotempty, enotdir, einval, eisdir]

/-- The target is looked at. -/
theorem checkTarget_triple (hold : (db.getByPath old).stIno ≠ 0)
    (hdest : (db.getByPath (branchPath new)).stIno ≠ 0)
    (hdir : sIsdir (db.getByPath (branchPath new)).stMode = true)
    (hnew : (db.getByPath new).stIno ≠ 0) :
    Triple (fun db' => db' = db)
      (checkTarget fails old new (db.getByPath old) (db.getByPath new))
      (fun e db' => db' = db ∧
        if e = 0 then
          db.renameCheck old new = .ok (db.getByPath old, db.getByPath (branchPath new))
        else db.renameCheck old new = .error e)
      (Left db old new) := by
  have hcheck : ∀ e, e = (_ : ℤ) → _ := fun e he => renameCheck_of_ne hold hdest hdir hnew he
  unfold checkTarget
  refine Triple.ite (fun hod => ?_) fun hod => ?_
  · refine Triple.ite (fun hnd => ?_) fun hnd => ?_
    · refine Triple.bind (Q := fun _ db' => db' = db) (Triple.point (fun _ h => h) ?_) fun _ => ?_
      · rintro _ rfl
        rfl
      · refine Triple.get_bind ?_
        rintro db' rfl
        refine Triple.ite (fun hempty => ?_) fun hempty =>
          Triple.ite (fun hpre => ?_) fun hpre => ?_
        · exact Triple.pure _ fun _ h => ⟨h, hcheck _ (by
            rw [if_pos hod, if_pos hnd, if_pos hempty])⟩
        · exact Triple.pure _ fun _ h => ⟨h, hcheck _ (by
            rw [if_pos hod, if_pos hnd, if_neg hempty, if_pos hpre])⟩
        · exact Triple.pure _ fun _ h => ⟨h, hcheck _ (by
            rw [if_pos hod, if_pos hnd, if_neg hempty, if_neg hpre])⟩
    · exact Triple.pure _ fun _ h => ⟨h, hcheck _ (by rw [if_pos hod, if_neg hnd])⟩
  · refine Triple.ite (fun hnd => ?_) fun hnd => ?_
    · exact Triple.pure _ fun _ h => ⟨h, hcheck _ (by rw [if_neg hod, if_pos hnd])⟩
    · exact Triple.pure _ fun _ h => ⟨h, hcheck _ (by rw [if_neg hod, if_neg hnd])⟩

theorem rename_of_check
    (hcheck : db.renameCheck old new = .ok (db.getByPath old, db.getByPath (branchPath new))) :
    db.rename old new =
      match Db.renameBelow old new (db.depthDiff old new) (db.cleared new) (db.below old new) with
      | (db₁, false) => (db₁, -eio)
      | (db₁, true) =>
        match db₁.updateFilePath new (fun _ => (db.getByPath (branchPath new)).depth + 1)
            (db.getByPath old).stIno with
        | none => (db₁, -eio)
        | some db₂ => (db₂, 0) := by
  have hlast : ∀ b : Db H × Bool,
      (if (!b.2) = true then (b.1, -eio)
        else match b.1.updateFilePath new (fun _ => (db.getByPath (branchPath new)).depth + 1)
            (db.getByPath old).stIno with
          | none => (b.1, -eio)
          | some db₂ => (db₂, 0)) =
        match b with
        | (db₁, false) => (db₁, -eio)
        | (db₁, true) =>
          match db₁.updateFilePath new (fun _ => (db.getByPath (branchPath new)).depth + 1)
              (db.getByPath old).stIno with
          | none => (db₁, -eio)
          | some db₂ => (db₂, 0) := by
    rintro ⟨db₁, _ | _⟩ <;> rfl
  unfold Db.rename
  rw [hcheck]
  refine (hlast _).trans ?_
  unfold Db.below
  cases sIsdir (db.getByPath old).stMode <;> rfl

/-- The loop leaves the rows it has passed. -/
theorem moveBelow_triple :
    Triple (fun db' => db' = db.cleared new)
      (moveBelow fails old new (db.getByPath old) (db.getByPath (branchPath new)))
      (fun _ db' => Db.renameBelow old new (db.depthDiff old new) (db.cleared new)
        (db.below old new) = (db', true)) (Left db old new) := by
  unfold moveBelow
  refine Triple.ite (fun hod => Triple.get_bind ?_) fun hod => ?_
  · rintro _ rfl
    show Triple (fun s => s = db.cleared new)
      (renameBelow fails old new (db.depthDiff old new) 0 ((db.cleared new).selected old)) _ _
    rintro _ rfl
    have hbelow : db.below old new = (db.cleared new).selected old := if_pos hod
    have hexec := @renameBelow_exec _ fails (db.cleared new) old new (db.depthDiff old new) 0
      (db.below old new)
    rw [← hbelow]
    revert hexec
    rcases exec (renameBelow fails old new (db.depthDiff old new) 0 (db.below old new))
      (db.cleared new) with ⟨p | _, db'⟩
    · rintro ⟨k, hp, htake⟩
      rw [Nat.zero_add] at hp
      rcases hp with rfl | rfl
      · exact htake
      · exact htake
    · exact fun hall => hall
  · refine Triple.pure _ ?_
    rintro _ rfl
    rw [Db.below, if_neg hod]
    rfl

/-- The rows move. -/
theorem move_triple
    (hcheck : db.renameCheck old new = .ok (db.getByPath old, db.getByPath (branchPath new))) :
    Triple (fun db' => db' = db.cleared new)
      (move fails old new (db.getByPath old) (db.getByPath (branchPath new)))
      (fun ret db' => db.rename old new = (db', ret)) (Left db old new) := by
  refine Triple.bind moveBelow_triple fun _ => ?_
  refine Triple.bind (Q := fun _ db' => db.rename old new = (db', 0)) ?_ fun _ =>
    Triple.pure _ fun _ h => h
  intro db₁ hbelow
  rw [updateFilePath_exec]
  have hrename := rename_of_check hcheck
  rw [hbelow] at hrename
  dsimp only at hrename
  cases hupd : db₁.updateFilePath new (fun _ => (db.getByPath (branchPath new)).depth + 1)
      (db.getByPath old).stIno with
  | none => cases fails .updateOld <;> exact hbelow
  | some db₂ =>
    rw [hupd] at hrename
    cases fails .updateOld with
    | true => exact hbelow
    | false => exact hrename

/-- **What `rename` leaves**: it returns with what the method without failures does, or throws
with the rows as the statements before the failing one have made them. -/
theorem rename_triple (db : Db H) (old new : Path) (fails : RenameStmt → Bool) :
    Triple (fun db' => db' = db) (rename fails old new)
      (fun ret db' => db.rename old new = (db', ret)) (Left db old new) := by
  have herror : ∀ e, db.renameCheck old new = .error e → ∀ db', db' = db →
      db.rename old new = (db', e) := by
    rintro e he _ rfl
    exact Db.rename_of_error he
  refine Triple.bind (getByPath_triple .lookupOld rfl old) fun oldFile => Triple.assume ?_
  rintro rfl
  refine Triple.ite (fun hold => ?_) fun hold => ?_
  · exact Triple.pure _ (herror _ (by simp [Db.renameCheck, hold]))
  refine Triple.bind (getByPath_triple .lookupDest rfl (branchPath new)) fun destDir =>
    Triple.assume ?_
  rintro rfl
  refine Triple.ite (fun hdest => ?_) fun hdest => Triple.ite (fun hdir => ?_) fun hdir => ?_
  · exact Triple.pure _ (herror _ (by simp [Db.renameCheck, hold, hdest]))
  · exact Triple.pure _ (herror _ (by simp [Db.renameCheck, hold, hdest, hdir]))
  rw [Bool.not_eq_true, Bool.not_eq_false'] at hdir
  refine Triple.bind (getByPath_triple .lookupNew rfl new) fun newFile => Triple.assume ?_
  rintro rfl
  refine Triple.ite (fun hnew => ?_) fun hnew => ?_
  · -- the target is looked at and removed
    refine Triple.bind (checkTarget_triple hold hdest hdir hnew) fun e => ?_
    refine Triple.ite (fun he => Triple.pure _ ?_) fun he => ?_
    · rintro db' ⟨hdb, hcheck⟩
      rw [if_neg he] at hcheck
      exact herror _ hcheck db' hdb
    · rw [not_not] at he
      subst he
      refine Triple.weaken (P := fun db' => db.renameCheck old new =
          .ok (db.getByPath old, db.getByPath (branchPath new)) ∧ db' = db)
        (Triple.assume fun hcheck => ?_) (fun _ h => ⟨(if_pos rfl).mp h.2, h.1⟩)
        (fun _ _ h => h) (fun _ _ h => h)
      refine Triple.bind (Q := fun _ db' => db' = db.cleared new) ?_ fun _ => move_triple hcheck
      refine Triple.bind (Q := fun _ db' => db' = db)
        (Triple.point (fun _ h => h) ?_) fun _ => Triple.modify _ ?_
      · rintro _ rfl
        rfl
      · rintro _ rfl
        exact (if_pos hnew).symm
  · rw [not_not] at hnew
    have hcleared : db.cleared new = db := if_neg (not_not.mpr hnew)
    have hcheck : db.renameCheck old new =
        .ok (db.getByPath old, db.getByPath (branchPath new)) := by
      simp [Db.renameCheck, hold, hdest, hdir, hnew]
    have hmove := @move_triple _ fails db old new hcheck
    rw [hcleared] at hmove
    exact hmove

end

end Failing

section undone

variable {db db' : Db H} {old new : Path}

namespace Failing

/-- The failing statement comes before the first change: before the DELETE, or without a row to
delete and with no row that the loop has changed. -/
def NothingMoved (db : Db H) (old new : Path) (p : RenameStmt) : Prop :=
  p.moves = true → (db.getByPath new).stIno = 0 ∧
    ∀ r ∈ p.passed (db.below old new), r.rewrite old new (db.depthDiff old new) = r

theorem passed_sublist (p : RenameStmt) (rows : List FileRow) :
    List.Sublist (p.passed rows) rows := by
  cases p with
  | select i => exact List.take_sublist i rows
  | update i => exact List.take_sublist i rows
  | updateOld => exact List.Sublist.refl rows
  | _ => exact List.nil_sublist rows

section

omit [DecidableEq H]

theorem below_sublist (db : Db H) (old new : Path) :
    List.Sublist (db.below old new) (db.cleared new).files.rows := by
  unfold Db.below
  split
  · exact List.filter_sublist
  · exact List.nil_sublist _

/-- The rows after the UPDATEs that were made. -/
theorem left_rows {p : RenameStmt} (hp : p.moves = true) (h : Left db old new p db') :
    db'.files.rows = (db.cleared new).files.rows.map fun r =>
      if r ∈ p.passed (db.below old new) then r.rewrite old new (db.depthDiff old new) else r := by
  rw [Left, if_pos hp] at h
  have hsub := (passed_sublist p (db.below old new)).trans (below_sublist db old new)
  have hrows := @Db.renameBelow_rows _ (db.cleared new) old new (db.depthDiff old new) _
    ((db.cleared new).files.nodup.sublist (hsub.map FileRow.id)) (fun _ hq => hsub.subset hq)
    (by rw [h])
  rw [h] at hrows
  exact hrows

/-- The row of the target is not there after the DELETE. -/
theorem length_cleared (h : (db.getByPath new).stIno ≠ 0) :
    (db.cleared new).files.rows.length < db.files.rows.length := by
  obtain ⟨r, hr, hpath, -⟩ := Db.getByPath_of_ne_zero h
  rw [Db.cleared, if_pos h]
  refine lt_of_le_of_ne (List.length_filter_le ..) fun heq => ?_
  have hall := List.length_filter_eq_length_iff.mp heq r hr
  simp [hpath] at hall

end

end Failing

omit [DecidableEq H] in
/-- **When a rename that fails leaves `files` as it was**: exactly when the failing statement
comes before the first change. -/
theorem rename_undone_iff (db db' : Db H) (old new : Path) (fails : RenameStmt → Bool)
    (p : RenameStmt) (hthrow : exec (Failing.rename fails old new) db = (.error p, db')) :
    db'.files.rows = db.files.rows ↔ Failing.NothingMoved db old new p := by
  have hleft : Failing.Left db old new p db' := by
    have htriple := Failing.rename_triple db old new fails db rfl
    rw [hthrow] at htriple
    exact htriple
  cases hp : p.moves with
  | false =>
    rw [Failing.Left, hp] at hleft
    have heq : db' = db := hleft
    rw [heq]
    refine ⟨fun _ hmoves => ?_, fun _ => rfl⟩
    rw [hp] at hmoves
    cases hmoves
  | true =>
    rw [Failing.left_rows hp hleft, Failing.NothingMoved, hp]
    by_cases hfree : (db.getByPath new).stIno = 0
    · have hcleared : db.cleared new = db := if_neg (not_not.mpr hfree)
      have hsub := (Failing.passed_sublist p (db.below old new)).trans
        (Failing.below_sublist db old new)
      rw [hcleared] at hsub ⊢
      constructor
      · intro heq _
        refine ⟨hfree, fun r hr => ?_⟩
        have hid := List.map_inj_left.mp (heq.trans (List.map_id _).symm) r (hsub.subset hr)
        rw [if_pos hr] at hid
        exact hid
      · intro h
        obtain ⟨-, hsame⟩ := h rfl
        refine (List.map_congr_left fun r _ => ?_).trans (List.map_id _)
        split
        · exact hsame r ‹_›
        · rfl
    · -- the row of the target is gone
      refine ⟨fun heq => ?_, fun h => absurd (h rfl).1 hfree⟩
      have hlen := congrArg List.length heq
      rw [List.length_map] at hlen
      exact absurd hlen (Failing.length_cleared hfree).ne

end undone

/-- One statement fails. -/
def onlyStmt (p : RenameStmt) : RenameStmt → Bool := fun q => q = p

/-- The first UPDATE fails. -/
theorem rename_undone_iff_first :
    caseDirs.files.rows = caseDirs.files.rows ↔
      Failing.NothingMoved caseDirs ['/', 'A'] ['/', 'b'] (.update 0) :=
  rename_undone_iff caseDirs caseDirs ['/', 'A'] ['/', 'b'] (onlyStmt (.update 0)) (.update 0) rfl

/-- **A rename that fails tears the tree apart.**  The last UPDATE fails: the file of the
directory has moved, and the directory has not. -/
theorem failed_rename_orphans :
    (¬∀ (db db' : Db (List UInt8)) (old new : Path) (fails : RenameStmt → Bool) (p : RenameStmt),
      db.Tree → exec (Failing.rename fails old new) db = (.error p, db') →
      db'.files.rows = db.files.rows) ∧
    (exec (Failing.rename (onlyStmt .updateOld) ['/', 'A'] ['/', 'b']) caseDirs).2.files.rows.map
      (fun r => r.path) = [['/'], ['/', 'a'], ['/', 'A'], ['/', 'b', '/', 'x']] := by
  refine ⟨fun hall => ?_, by decide⟩
  have h := hall caseDirs _ ['/', 'A'] ['/', 'b'] (onlyStmt .updateOld) .updateOld caseDirs_tree rfl
  revert h
  decide

end Wwdedup
