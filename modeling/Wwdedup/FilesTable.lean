import Wwdedup.RoundSteps

/-!
# The table `files`

What the statements and methods on `files` do to its rows: no row has the number 0, no two rows
have the same path (`FilesOk`), `getByPath` shows the row of a path, and every method but
`remove` keeps each row with its size and mode (`FileKept`).  `FilesOk` holds in every reachable
state.
-/

namespace Wwdedup

open GuardedRun

variable {bits : ℕ} {H : Type} [DecidableEq H]

/-- The `file_info` that `getByPath` makes from a row. -/
def FileRow.info (r : FileRow) : FileInfo H where
  name := r.path
  depth := r.depth
  stIno := r.id
  stSize := r.size
  stMode := r.mode
  blocks := fun _ => none

namespace Db

/-- `_ID` starts at 1, and the column `path` is UNIQUE. -/
structure FilesOk (db : Db H) : Prop where
  ids : ∀ r ∈ db.files.rows, r.id ≠ 0
  paths : ∀ r ∈ db.files.rows, ∀ r' ∈ db.files.rows, r.path = r'.path → r = r'

variable {db : Db H} {path : Path} {r : FileRow}

section

omit [DecidableEq H]

/-- `getByPath` shows the row of the path, or `st_ino = 0` when there is none. -/
theorem getByPath_cases (db : Db H) (path : Path) :
    (∃ r ∈ db.files.rows, r.path = path ∧ db.getByPath path = r.info) ∨
      (∀ r ∈ db.files.rows, r.path ≠ path) ∧ (db.getByPath path).stIno = 0 ∧
        (db.getByPath path).stMode = 0 := by
  unfold getByPath getByPathIn
  cases hfind : db.files.rows.find? fun r => decide (r.path = path) with
  | some r =>
    have hpath : r.path = path := by simpa using List.find?_some hfind
    left
    refine ⟨r, List.mem_of_find?_eq_some hfind, hpath, ?_⟩
    rw [← hpath]
    rfl
  | none =>
    right
    refine ⟨fun r hr => ?_, rfl, rfl⟩
    simpa using List.find?_eq_none.mp hfind r hr

theorem getByPath_of_ne_zero (h : (db.getByPath path).stIno ≠ 0) :
    ∃ r ∈ db.files.rows, r.path = path ∧ db.getByPath path = r.info := by
  rcases getByPath_cases db path with hrow | ⟨-, hzero, -⟩
  · exact hrow
  · exact absurd hzero h

theorem FilesOk.absent (hok : db.FilesOk) (h : (db.getByPath path).stIno = 0) :
    ∀ r ∈ db.files.rows, r.path ≠ path := by
  rcases getByPath_cases db path with ⟨r, hr, -, heq⟩ | ⟨hno, -⟩
  · rw [heq] at h
    exact absurd h (hok.ids r hr)
  · exact hno

theorem FilesOk.getByPath_of_mem (hok : db.FilesOk) (hr : r ∈ db.files.rows) :
    db.getByPath r.path = r.info := by
  rcases getByPath_cases db r.path with ⟨r', hr', hpath, heq⟩ | ⟨hno, -⟩
  · rw [heq, hok.paths r' hr' r hr hpath]
  · exact absurd rfl (hno r hr)

theorem empty_filesOk : (empty : Db H).FilesOk := ⟨nofun, nofun⟩

end

/-! ### Rows that stay -/

/-- The row of the file stays, with its size and mode. -/
def FileKept (db db' : Db H) (id : ℕ) : Prop :=
  ∀ row, db.files.find id = some row →
    ∃ row', db'.files.find id = some row' ∧ row'.size = row.size ∧ row'.mode = row.mode

omit [DecidableEq H] in
theorem FileKept.refl (db : Db H) (id : ℕ) : db.FileKept db id := fun row h => ⟨row, h, rfl, rfl⟩

omit [DecidableEq H] in
theorem FileKept.trans {db db' db'' : Db H} {id : ℕ} (h : db.FileKept db' id)
    (h' : db'.FileKept db'' id) : db.FileKept db'' id := by
  intro row hrow
  obtain ⟨row', hrow', hsize, hmode⟩ := h row hrow
  obtain ⟨row'', hrow'', hsize', hmode'⟩ := h' row' hrow'
  exact ⟨row'', hrow'', hsize'.trans hsize, hmode'.trans hmode⟩

/-! ### `create` and `remove` -/

section

omit [DecidableEq H]

/-- A new row with a path that no row has. -/
theorem FilesOk.insert (hok : db.FilesOk) {mk : ℕ → FileRow} (hmk : ∀ n, (mk n).id = n)
    (hnew : ∀ r ∈ db.files.rows, r.path ≠ (mk db.files.nextId).path) :
    ({ db with files := db.files.insert mk hmk } : Db H).FilesOk where
  ids r hr := by
    rcases List.mem_append.mp hr with hr | hr
    · exact hok.ids r hr
    · rw [List.mem_singleton.mp hr, hmk]
      exact KeyedTable.nextId_pos _
  paths r hr r' hr' hpath := by
    rcases List.mem_append.mp hr with hr | hr <;> rcases List.mem_append.mp hr' with hr' | hr'
    · exact hok.paths r hr r' hr' hpath
    · rw [List.mem_singleton.mp hr'] at hpath
      exact absurd hpath (hnew r hr)
    · rw [List.mem_singleton.mp hr] at hpath
      exact absurd hpath.symm (hnew r' hr')
    · rw [List.mem_singleton.mp hr, List.mem_singleton.mp hr']

/-- `create` fails and changes nothing, or adds an empty file under the next number. -/
theorem create_cases (hok : db.FilesOk) (path : Path) (mode : ℕ) :
    (db.create path mode).1 = db ∧ (db.create path mode).2 < 0 ∨
      (db.create path mode).2 = 0 ∧ (db.create path mode).1.FilesOk ∧
        (∀ id, db.FileKept (db.create path mode).1 id) ∧
        ∃ depth, (db.create path mode).1 = { db with
            files := db.files.insert (fun n => ⟨n, path, depth, 0, mode⟩) (fun _ => rfl) } ∧
          (db.create path mode).1.getByPath path =
            (⟨db.files.nextId, path, depth, 0, mode⟩ : FileRow).info := by
  unfold create
  dsimp only
  split
  · exact .inl ⟨rfl, Int.negSucc_lt_zero _⟩
  · split
    · exact .inl ⟨rfl, Int.negSucc_lt_zero _⟩
    · split
      · exact .inl ⟨rfl, Int.negSucc_lt_zero _⟩
      · rename_i hfree
        have hnew := hok.absent (not_not.mp hfree)
        have hok' : ∀ depth, ({ db with
            files := db.files.insert (fun n => ⟨n, path, depth, 0, mode⟩) (fun _ => rfl) } :
            Db H).FilesOk := fun depth => hok.insert (fun _ => rfl) hnew
        right
        refine ⟨rfl, hok' _, fun id row hrow => ⟨row, ?_, rfl, rfl⟩, _, rfl, ?_⟩
        · rw [KeyedTable.find_insert, if_neg]
          · exact hrow
          · intro hid
            rw [hid, KeyedTable.find_nextId] at hrow
            cases hrow
        · exact (hok' _).getByPath_of_mem (List.mem_append_right _ (List.mem_singleton_self _))

theorem FilesOk.remove (hok : db.FilesOk) (path : Path) : (db.remove path).1.FilesOk where
  ids r hr := hok.ids r (List.mem_filter.mp hr).1
  paths r hr r' hr' := hok.paths r (List.mem_filter.mp hr).1 r' (List.mem_filter.mp hr').1

/-- `remove` takes the row of the path and no other. -/
theorem fileKept_remove {id : ℕ} (h : ∀ row, db.files.find id = some row → row.path ≠ path) :
    db.FileKept (db.remove path).1 id := by
  intro row hrow
  refine ⟨row, ?_, rfl, rfl⟩
  show (db.files.delete _).find id = some row
  rw [KeyedTable.find_delete, hrow, Option.filter_some_pos]
  simpa using h row hrow

end

/-! ### Changes of a row -/

section

omit [DecidableEq H]

theorem FilesOk.updateFileSize (hok : db.FilesOk) (size id : ℕ) :
    (db.updateFileSize size id).FilesOk where
  ids r hr := by
    obtain ⟨q, hq, rfl⟩ := List.mem_map.mp hr
    have hid := hok.ids q hq
    split
    · exact hid
    · exact hid
  paths r hr r' hr' hpath := by
    obtain ⟨q, hq, rfl⟩ := List.mem_map.mp hr
    obtain ⟨q', hq', rfl⟩ := List.mem_map.mp hr'
    have hsame : ∀ q : FileRow,
        (if decide (q.id = id) = true then { q with size := size } else q).path = q.path := by
      intro q
      split <;> rfl
    rw [hsame, hsame] at hpath
    rw [hok.paths q hq q' hq' hpath]

theorem find_updateFileSize (db : Db H) (size id k : ℕ) :
    (db.updateFileSize size id).files.find k =
      (db.files.find k).map fun r => if r.id = id then { r with size := size } else r := by
  rw [updateFileSize, KeyedTable.find_modify]
  simp only [decide_eq_true_eq]

/-- A changed path is that of no other row. -/
theorem updateFilePath_some {db' : Db H} {depth : ℤ → ℤ} {id : ℕ} (hok : db.FilesOk)
    (h : db.updateFilePath path depth id = some db') :
    db'.FilesOk ∧ ∀ k, db.FileKept db' k := by
  unfold updateFilePath at h
  split at h
  · cases h
  · rename_i hfree
    cases h
    refine ⟨⟨fun r hr => ?_, fun r hr r' hr' hpath => ?_⟩, fun k row hrow => ?_⟩
    · obtain ⟨q, hq, rfl⟩ := List.mem_map.mp hr
      have hid := hok.ids q hq
      split
      · exact hid
      · exact hid
    · obtain ⟨q, hq, rfl⟩ := List.mem_map.mp hr
      obtain ⟨q', hq', rfl⟩ := List.mem_map.mp hr'
      -- a row that gets the path has the number, and no other row has the path
      have hother : ∀ a ∈ db.files.rows, ∀ b ∈ db.files.rows, a.id = id → b.id ≠ id →
          b.path ≠ path := by
        intro a ha b hb hida hidb hpathb
        apply hfree
        refine ⟨?_, ?_⟩
        · rw [← hida, KeyedTable.find_of_mem ha]
          rfl
        · simpa using ⟨b, hb, hidb, hpathb⟩
      have hsame : q = q' := by
        by_cases hq₁ : q.id = id <;> by_cases hq₂ : q'.id = id
        · have := KeyedTable.find_of_mem hq
          rw [hq₁, ← hq₂, KeyedTable.find_of_mem hq'] at this
          exact (Option.some.inj this).symm
        · simp only [hq₁, hq₂, decide_true, decide_false, if_true, Bool.false_eq_true,
            if_false] at hpath
          exact absurd hpath.symm (hother q hq q' hq' hq₁ hq₂)
        · simp only [hq₁, hq₂, decide_true, decide_false, if_true, Bool.false_eq_true,
            if_false] at hpath
          exact absurd hpath (hother q' hq' q hq hq₂ hq₁)
        · simp only [hq₁, hq₂, decide_false, Bool.false_eq_true, if_false] at hpath
          exact hok.paths q hq q' hq' hpath
      rw [hsame]
    · have hfind := KeyedTable.find_modify db.files (fun r => decide (r.id = id))
        (fun r => { r with path := path, depth := depth r.depth }) (fun _ => rfl) k
      rw [hrow, Option.map_some] at hfind
      refine ⟨_, hfind, ?_, ?_⟩
      · split <;> rfl
      · split <;> rfl

end

/-! ### `rename` -/

omit [DecidableEq H] in
theorem renameBelow_kept (oldPath newPath : Path) (d : ℤ) (rows : List FileRow)
    (hok : db.FilesOk) :
    (renameBelow oldPath newPath d db rows).1.FilesOk ∧
      ∀ k, db.FileKept (renameBelow oldPath newPath d db rows).1 k := by
  induction rows generalizing db with
  | nil => exact ⟨hok, fun k => .refl db k⟩
  | cons r rows ih =>
    rw [renameBelow]
    cases h : db.updateFilePath (newPath ++ r.path.drop oldPath.length) (· + d) r.id with
    | none => exact ⟨hok, fun k => .refl db k⟩
    | some db' =>
      obtain ⟨hok', hkept⟩ := updateFilePath_some hok h
      obtain ⟨hok'', hkept'⟩ := ih hok'
      exact ⟨hok'', fun k => (hkept k).trans (hkept' k)⟩

omit [DecidableEq H] in
/-- `rename` keeps every row, but for the one at the new path when it goes ahead. -/
theorem rename_kept (hok : db.FilesOk) (oldPath newPath : Path) :
    (db.rename oldPath newPath).1.FilesOk ∧
      ∀ k, (∀ q, db.renameCheck oldPath newPath = .ok q →
          ∀ row, db.files.find k = some row → row.path ≠ newPath) →
        db.FileKept (db.rename oldPath newPath).1 k := by
  unfold rename
  cases hcheck : db.renameCheck oldPath newPath with
  | error e => exact ⟨hok, fun k _ => .refl db k⟩
  | ok q =>
    obtain ⟨oldFile, destDir⟩ := q
    dsimp only
    generalize hdb : (if (db.getByPath newPath).stIno ≠ 0 then (db.remove newPath).1 else db) = db₁
    have hfirst : db₁.FilesOk ∧ ∀ k, (∀ row, db.files.find k = some row → row.path ≠ newPath) →
        db.FileKept db₁ k := by
      rw [← hdb]
      split
      · exact ⟨hok.remove newPath, fun k hk => fileKept_remove hk⟩
      · exact ⟨hok, fun k _ => .refl db k⟩
    obtain ⟨hok₁, hkept₁⟩ := hfirst
    generalize hbelow : (if sIsdir oldFile.stMode = true then _ else _ : Db H × Bool) = below
    have hsecond : below.1.FilesOk ∧ ∀ k, db₁.FileKept below.1 k := by
      rw [← hbelow]
      split
      · exact renameBelow_kept _ _ _ _ hok₁
      · exact ⟨hok₁, fun k => .refl db₁ k⟩
    obtain ⟨hok₂, hkept₂⟩ := hsecond
    have hkept : ∀ k, (∀ row, db.files.find k = some row → row.path ≠ newPath) →
        db.FileKept below.1 k := fun k hk => (hkept₁ k hk).trans (hkept₂ k)
    split
    · exact ⟨hok₂, fun k hk => hkept k (hk _ rfl)⟩
    · split
      · exact ⟨hok₂, fun k hk => hkept k (hk _ rfl)⟩
      · rename_i db' hupd
        obtain ⟨hok₃, hkept₃⟩ := updateFilePath_some hok₂ hupd
        exact ⟨hok₃, fun k hk => (hkept k (hk _ rfl)).trans (hkept₃ k)⟩

end Db

/-! ### Runs -/

section runs

variable {cfg : Config bits H} {s s' : Store bits H} {fi fi' : FileInfo H}

/-- The only change of `files` that a round makes is one of a size. -/
theorem roundStep_files {r : Round} {out : List UInt8}
    (hr : roundStep cfg (s, fi) r = .ok ((s', fi'), out)) :
    s'.db.files = s.db.files ∨ ∃ size, s'.db.files = (s.db.updateFileSize size fi.stIno).files := by
  cases roundStep_stepped hr with
  | resize newSize =>
    rw [Store.setDb_db]
    unfold Db.ftruncate
    split
    · exact .inl rfl
    · split
      · exact .inl rfl
      · exact .inr ⟨_, rfl⟩
  | read c x touched shown =>
    left
    rw [touched.same.db, (getLockedFileBlock_locates cfg s fi c.block).db_eq]
  | write buf c old touched shown ran wrote =>
    left
    rw [wrote.files_eq, touched.same.db, (getLockedFileBlock_locates cfg s fi c.block).db_eq]
  | release n g hash =>
    left
    rw [released_db, files_released]

omit [DecidableEq H] in
theorem Db.FilesOk.congr {db db' : Db H} (h : db.FilesOk) (heq : db'.files = db.files) :
    db'.FilesOk := by
  refine ⟨?_, ?_⟩ <;> rw [heq]
  · exact h.ids
  · exact h.paths

theorem run_filesOk {rs : List Round} {os : List (List UInt8)} (h : s.db.FilesOk)
    (hrun : run (roundStep cfg) (s, fi) rs = .ok ((s', fi'), os)) : s'.db.FilesOk := by
  refine run_invariant (G := fun _ _ => True) (I := fun p => p.1.db.FilesOk) ?_ h
    (meets_of_forall (fun _ _ => trivial) _ _) hrun
  rintro ⟨s, fi⟩ r ⟨s', fi'⟩ o hs - hr
  rcases roundStep_files hr with heq | ⟨size, heq⟩
  · exact hs.congr heq
  · exact (hs.updateFileSize size fi.stIno).congr heq

theorem Fs.step_filesOk {fs fs' : Fs bits H} {op : Op} {out : Out} (h : fs.store.db.FilesOk)
    (hstep : fs.step cfg op = .ok (fs', out)) : fs'.store.db.FilesOk := by
  have hcreate : ∀ path mode, (fs.store.db.create path mode).1.FilesOk := by
    intro path mode
    rcases Db.create_cases h path mode with ⟨heq, -⟩ | ⟨-, hok, -⟩
    · rw [heq]
      exact h
    · exact hok
  cases op with
  | create path mode =>
    simp only [step, create, Except.ok.injEq] at hstep
    split at hstep
    · cases hstep
      exact hcreate path mode
    · cases hstep
      exact hcreate path mode
  | mkdir path mode =>
    cases hstep
    exact hcreate path _
  | openFile path =>
    simp only [step, openFile, Except.ok.injEq] at hstep
    split at hstep
    · cases hstep
      exact h
    · split at hstep <;> cases hstep <;> exact h
  | release fh =>
    cases hstep
    exact h
  | write fh buf offset =>
    obtain ⟨fi, fi', s', os, -, -, hrun, rfl, -⟩ := step_write_ok hstep
    exact run_filesOk h hrun
  | read fh size offset =>
    obtain ⟨fi, fi', s', os, -, -, -, hrun, rfl, -⟩ := step_read_ok hstep
    exact run_filesOk h hrun
  | truncate path newSize =>
    obtain ⟨rfl, -⟩ | ⟨n, fi', s', os, -, -, hrun, rfl⟩ := step_truncate_ok hstep
    · exact h
    · exact run_filesOk h hrun
  | ftruncate fh newSize =>
    obtain ⟨rfl, -⟩ | ⟨n, fi, fi', s', os, -, -, -, hrun, rfl⟩ := step_ftruncate_ok hstep
    · exact h
    · exact run_filesOk h hrun
  | unlink path =>
    obtain ⟨rfl, -⟩ | ⟨fi', s', os, -, hrun, rfl⟩ := step_unlink_ok hstep
    · exact h
    · exact (run_filesOk h hrun).remove path
  | rmdir path memory =>
    obtain rfl | ⟨-, -, rfl⟩ := step_rmdir_ok hstep
    · exact h
    · exact h.remove path
  | rename oldPath newPath =>
    cases hstep
    exact (Db.rename_kept h oldPath newPath).1
  | writerPass victims =>
    cases hstep
    exact h
  | remount =>
    obtain ⟨-, rfl, -⟩ := step_remount_ok hstep
    exact hcreate ['/'] _
  | clock now =>
    cases hstep
    exact h

theorem Fs.init_filesOk : (Fs.init bits H).store.db.FilesOk := by
  have hempty : (Db.empty : Db H).FilesOk := Db.empty_filesOk
  rcases Db.create_cases hempty ['/'] (sIfdir ||| 0o755) with ⟨heq, -⟩ | ⟨-, hok, -⟩
  · show ((Db.empty : Db H).create ['/'] (sIfdir ||| 0o755)).1.FilesOk
    rw [heq]
    exact hempty
  · exact hok

theorem Fs.reachable_filesOk {fs : Fs bits H}
    (h : Reachable (Fs.step cfg) (Fs.init bits H) fs) : fs.store.db.FilesOk :=
  reachable_invariant (fun _ _ _ _ h hstep => Fs.step_filesOk h hstep) Fs.init_filesOk h

end runs

end Wwdedup
