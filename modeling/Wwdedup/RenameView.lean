import Wwdedup.FsView

/-!
# A rename moves names

`rename` runs over the rows that a pattern matches and looks at letters, not at names.  Where it is
not led astray by that (`RenameClear`), it refuses what is due (`renameCheck_view`), it never
throws (`Tree.rename_isOk`), the rows are a tree again, and in the view of the file system the old
path and everything below it have moved (`view_moved`).
-/

namespace Wwdedup

variable {bits : ℕ} {H : Type} [DecidableEq H]

/-! ### Paths in another place -/

section paths

variable {dir old new p q : Path}

/-- What is below a directory continues its path with a slash. -/
theorem below_iff (hroot : dir ≠ ['/']) :
    below dir p = true ↔ ∃ rest, rest ≠ [] ∧ p = dir ++ '/' :: rest := by
  rw [below, Bool.and_eq_true, List.isPrefixOf_iff_prefix, decide_eq_true_eq, entriesPrefix,
    if_neg hroot]
  constructor
  · rintro ⟨⟨rest, rfl⟩, hne⟩
    refine ⟨rest, ?_, by simp⟩
    rintro rfl
    exact hne (List.append_nil _)
  · rintro ⟨rest, hrest, rfl⟩
    refine ⟨⟨rest, by simp⟩, fun heq => hrest ?_⟩
    simpa using heq

theorem movePath_append (old new x : Path) : movePath old new (old ++ x) = new ++ x := by
  rw [movePath, List.drop_left]

/-- **Moving there and back** leaves a path of the subtree. -/
theorem movePath_back (hold : old ≠ ['/']) (hnew : new ≠ ['/'])
    (hp : p = old ∨ below old p = true) :
    (movePath old new p = new ∨ below new (movePath old new p) = true) ∧
      movePath new old (movePath old new p) = p := by
  rcases hp with rfl | hp
  · rw [movePath_self, movePath_self]
    exact ⟨.inl rfl, rfl⟩
  · obtain ⟨rest, hrest, rfl⟩ := (below_iff hold).mp hp
    rw [movePath_append, movePath_append]
    exact ⟨.inr ((below_iff hnew).mpr ⟨rest, hrest, rfl⟩), rfl⟩

theorem movePath_injOn (hold : old ≠ ['/']) (hnew : new ≠ ['/']) (hp : below old p = true)
    (hq : below old q = true) (heq : movePath old new p = movePath old new q) : p = q := by
  rw [← (movePath_back hold hnew (.inr hp)).2, heq, (movePath_back hold hnew (.inr hq)).2]

end paths

namespace Db

variable {db db' : Db H} {old new path : Path} {d : ℤ}

/-! ### The checks -/

/-- The letters of the paths do not lead the rename astray: no path is renamed to itself, no
directory to a free place below itself or to a directory whose path only begins like its own, no
other directory is mistaken for the target, and the pattern matches nothing but the subtree. -/
structure RenameClear (db : Db H) (old new : Path) : Prop where
  normal : NormalPath new
  ne : old ≠ new
  outside : sIsdir (db.getByPath old).stMode = true → (db.getByPath new).stIno = 0 →
    Wwdedup.below old new = false
  letters : sIsdir (db.getByPath old).stMode = true → sIsdir (db.getByPath new).stMode = true →
    old.isPrefixOf new = true → Wwdedup.below old new = true
  apart : ∀ d ∈ db.files.rows, d.path = new → ∀ e, ¬db.Mistaken d e
  selects : sIsdir (db.getByPath old).stMode = true → ∀ r ∈ db.files.rows, r.path ≠ new →
    like (old ++ ['/', '%']) r.path = true → Wwdedup.below old r.path = true

section

omit [DecidableEq H]

/-- **An empty directory** is one without entries, when no other is mistaken for it. -/
theorem Tree.dirEmpty_iff (h : db.Tree) (hapart : ∀ d ∈ db.files.rows, d.path = path →
    ∀ e, ¬db.Mistaken d e) (hino : (db.getByPath path).stIno ≠ 0) :
    db.dirEmpty (db.getByPath path) = true ↔ ¬db.HasEntry path := by
  obtain ⟨d, hd, rfl, hinfo⟩ := getByPath_of_ne_zero hino
  rw [hinfo, Db.dirEmpty_iff, List.eq_nil_iff_forall_not_mem]
  constructor
  · rintro hnil ⟨r, hr, hroot, hbranch⟩
    exact hnil r ((h.mem_listed hd).mpr ⟨hr, .inl ⟨hroot, hbranch⟩⟩)
  · intro hno r hr
    obtain ⟨hrow, ⟨hroot, hbranch⟩ | ⟨e, he, -⟩⟩ := (h.mem_listed hd).mp hr
    · exact hno ⟨r, hrow, hroot, hbranch⟩
    · exact hapart d hd rfl e he

/-- Nothing can be named in the empty path. -/
theorem Tree.ne_root_of_parent (h : db.Tree) (hdest : (db.getByPath (branchPath new)).stIno ≠ 0) :
    new ≠ ['/'] := by
  rintro rfl
  obtain ⟨t, ht, htpath, -⟩ := getByPath_of_ne_zero hdest
  obtain ⟨names, -, hpath⟩ := h.normal t ht
  rw [htpath] at hpath
  cases names with
  | nil => cases hpath
  | cons n names => cases hpath

/-- What the checks let through goes to no place below itself. -/
theorem Tree.not_below_of_check (h : db.Tree) (hclear : db.RenameClear old new)
    (hcheck : ∃ q, db.renameCheck old new = .ok q) : Wwdedup.below old new = false := by
  obtain ⟨hold, hdest, hdir, hexists⟩ := (renameCheck_ok_iff db old new).mp hcheck
  obtain ⟨o, ho, rfl, hinfo⟩ := getByPath_of_ne_zero hold
  have hnewroot := h.ne_root_of_parent hdest
  rw [Bool.eq_false_iff]
  intro hbelow
  have hisdir : sIsdir (db.getByPath o.path).stMode = true := by
    -- the parent of the new path is the old one or below it
    obtain ⟨t, ht, htpath, htinfo⟩ := getByPath_of_ne_zero hdest
    rw [htinfo] at hdir
    have hup := (below_iff_branchPath (h.normal o ho) hclear.normal hnewroot).mp hbelow
    rw [hinfo]
    rw [← htpath] at hup
    rcases hup with heq | hup
    · rw [← h.files.paths t ht o ho heq]
      exact hdir
    · obtain ⟨o', ho', hpath', hdir'⟩ := h.dir_of_below (h.normal o ho) ht hup
      rw [← h.files.paths o' ho' o ho hpath']
      exact hdir'
  by_cases hfree : (db.getByPath new).stIno = 0
  · rw [hclear.outside hisdir hfree] at hbelow
    cases hbelow
  · obtain ⟨-, hempty⟩ := hexists hfree
    rw [isPrefixOf_of_below hbelow] at hempty
    cases (hempty hisdir).2

end

/-! ### No exception -/

section

omit [DecidableEq H]

/-- The loop comes to its end when no two rows would get the same path. -/
theorem renameBelow_isOk {rows : List FileRow}
    (hfree : ∀ r ∈ rows, ∀ q ∈ db.files.rows, q.path = movePath old new r.path → q.id = r.id)
    (hinj : ∀ r ∈ rows, ∀ r' ∈ rows, movePath old new r.path = movePath old new r'.path →
      r.id = r'.id) : (renameBelow old new d db rows).2 = true := by
  induction rows generalizing db with
  | nil => rfl
  | cons r rows ih =>
    rw [renameBelow]
    cases hupd : db.updateFilePath (new ++ r.path.drop old.length) (· + d) r.id with
    | none =>
      unfold updateFilePath at hupd
      split at hupd
      · rename_i hclash
        obtain ⟨q, hq, hne, hpath⟩ : ∃ q ∈ db.files.rows, q.id ≠ r.id ∧
            q.path = new ++ r.path.drop old.length := by simpa using hclash.2
        exact absurd (hfree r (List.mem_cons_self ..) q hq hpath) hne
      · cases hupd
    | some db₁ =>
      apply ih
      · intro x hx q hq hpath
        rw [updateFilePath_rows hupd] at hq
        obtain ⟨q', hq', rfl⟩ := List.mem_map.mp hq
        by_cases hid : q'.id = r.id
        · -- the row that was just moved has the path of another one only if it is the same
          rw [if_pos hid] at hpath ⊢
          exact hid.trans (hinj r (List.mem_cons_self ..) x (List.mem_cons_of_mem _ hx) hpath)
        · rw [if_neg hid] at hpath ⊢
          exact hfree x (List.mem_cons_of_mem _ hx) q' hq' hpath
      · exact fun x hx x' hx' =>
          hinj x (List.mem_cons_of_mem _ hx) x' (List.mem_cons_of_mem _ hx')

/-- Nothing is below the target. -/
theorem Tree.not_below_leaf (h : db.Tree) (hnew : NormalPath new)
    (hleaf : ∀ r ∈ db.files.rows, r.path ≠ ['/'] → branchPath r.path ≠ new) {r : FileRow}
    (hr : r ∈ db.files.rows) : Wwdedup.below new r.path = false := by
  rw [Bool.eq_false_iff]
  intro hbelow
  -- from parent to parent
  generalize hn : components r.path = n
  induction n using Nat.strong_induction_on generalizing r with
  | _ n ih =>
    have hroot := ne_root_of_below hbelow (h.normal r hr) hnew
    obtain ⟨t, ht, htpath, -⟩ := h.parent r hr hroot
    have hlt := components_branchPath (h.normal r hr) hroot
    rw [← htpath, hn] at hlt
    rcases (below_iff_branchPath hnew (h.normal r hr) hroot).mp hbelow with heq | hup
    · exact hleaf r hr hroot heq
    · rw [← htpath] at hup
      exact ih _ (by omega) ht hup rfl

theorem rows_cleared (hok : db.FilesOk) (new : Path) :
    (if (db.getByPath new).stIno ≠ 0 then (db.remove new).1 else db).files.rows =
      db.files.rows.filter fun r => r.path ≠ new := by
  split
  · show db.files.rows.filter _ = _
    refine List.filter_congr fun r _ => ?_
    simp
  · rename_i hfree
    refine (List.filter_eq_self.mpr fun r hr => ?_).symm
    simpa using hok.absent (not_not.mp hfree) r hr

/-- The rows below the old path find no other row where they go. -/
theorem Tree.renameBelow_fits (h : db.Tree) (hold : old ≠ ['/']) (hnew : new ≠ ['/'])
    (hnormal : NormalPath new)
    (hleaf : ∀ r ∈ db.files.rows, r.path ≠ ['/'] → branchPath r.path ≠ new) {db₁ : Db H}
    (hmem : ∀ r, r ∈ db₁.files.rows ↔ r ∈ db.files.rows ∧ r.path ≠ new)
    (hsel : ∀ r ∈ db₁.selected old, r ∈ db₁.files.rows ∧ Wwdedup.below old r.path = true) :
    (renameBelow old new d db₁ (db₁.selected old)).2 = true := by
  apply renameBelow_isOk
  · intro r hr q hq hpath
    -- a row that has the path already would be below the target
    obtain ⟨-, hrb⟩ := hsel r hr
    obtain ⟨hqrow, hqnew⟩ := (hmem q).mp hq
    rcases (movePath_back hold hnew (.inr hrb)).1 with heq | hqb
    · exact absurd (hpath.trans heq) hqnew
    · rw [← hpath, h.not_below_leaf hnormal hleaf hqrow] at hqb
      cases hqb
  · intro r hr r' hr' heq
    obtain ⟨hrow, hrb⟩ := hsel r hr
    obtain ⟨hrow', hrb'⟩ := hsel r' hr'
    rw [h.files.paths r ((hmem r).mp hrow).1 r' ((hmem r').mp hrow').1
      (movePath_injOn hold hnew hrb hrb' heq)]

/-- No row comes to the new path itself. -/
theorem rewrite_path_ne (hold : old ≠ ['/']) (hnew : new ≠ ['/']) {r : FileRow}
    (hrb : Wwdedup.below old r.path = true) : (r.rewrite old new d).path ≠ new := by
  intro hpath
  have hback := (movePath_back hold hnew (.inr hrb)).2
  have hpath' : movePath old new r.path = new := hpath
  rw [hpath', movePath_self] at hback
  rw [← hback, not_below_self] at hrb
  cases hrb

/-- **A rename that the checks let through throws nothing**, when the pattern matches nothing but
the subtree. -/
theorem Tree.rename_isOk (h : db.Tree) (hclear : db.RenameClear old new)
    (hcheck : ∃ q, db.renameCheck old new = .ok q) : (db.rename old new).2 = 0 := by
  have hnot := h.not_below_of_check hclear hcheck
  have hleaf := h.leaf_of_renameCheck hcheck
  obtain ⟨hold, hdest, -, -⟩ := (renameCheck_ok_iff db old new).mp hcheck
  have hnewroot := h.ne_root_of_parent hdest
  have holdroot : old ≠ ['/'] := by
    rintro rfl
    rw [below_root hclear.normal hnewroot] at hnot
    cases hnot
  obtain ⟨o, ho, hopath, hoinfo⟩ := getByPath_of_ne_zero hold
  obtain ⟨q, hq⟩ := hcheck
  obtain rfl := renameCheck_eq_ok hq
  unfold rename
  rw [hq]
  dsimp only
  have hrows := rows_cleared h.files new
  generalize (if (db.getByPath new).stIno ≠ 0 then (db.remove new).1 else db) = db₁ at hrows ⊢
  generalize hd : (db.getByPath (branchPath new)).depth + 1 - (db.getByPath old).depth = d
  have hmem : ∀ r, r ∈ db₁.files.rows ↔ r ∈ db.files.rows ∧ r.path ≠ new := by
    intro r
    rw [hrows, List.mem_filter, decide_eq_true_eq]
  have hsel : sIsdir (db.getByPath old).stMode = true → ∀ r ∈ db₁.selected old,
      r ∈ db₁.files.rows ∧ Wwdedup.below old r.path = true := by
    intro hdir r hr
    obtain ⟨hrow, hlike⟩ := List.mem_filter.mp hr
    obtain ⟨hrow', hne⟩ := (hmem r).mp hrow
    exact ⟨hrow, hclear.selects hdir r hrow' hne hlike⟩
  generalize hbelow : (if sIsdir (db.getByPath old).stMode = true then
    renameBelow old new d db₁ (db₁.selected old) else (db₁, true)) = moved
  have hbelow' : (if sIsdir (db.getByPath old).stMode = true then
      renameBelow old new d db₁
        (db₁.files.rows.filter fun r => like (old ++ ['/', '%']) r.path)
    else (db₁, true)) = moved := hbelow
  rw [hbelow']
  have hdone : moved.2 = true := by
    rw [← hbelow]
    split
    · rename_i hdir
      exact h.renameBelow_fits holdroot hnewroot hclear.normal hleaf hmem (hsel hdir)
    · rfl
  rw [hdone]
  have hafter := renameBelow_selected hbelow hdone
  cases hupd : moved.1.updateFilePath new (fun _ => (db.getByPath (branchPath new)).depth + 1)
      (db.getByPath old).stIno with
  | some db₂ => rfl
  | none =>
    -- no row has the new path now
    exfalso
    unfold updateFilePath at hupd
    split at hupd
    · rename_i hclash
      obtain ⟨q, hq, -, hpath⟩ : ∃ q ∈ moved.1.files.rows, q.id ≠ (db.getByPath old).stIno ∧
          q.path = new := by simpa using hclash.2
      rw [hafter] at hq
      obtain ⟨r, hr, rfl⟩ := List.mem_map.mp hq
      split at hpath
      · rename_i hmoved
        obtain ⟨-, hrb⟩ := hsel hmoved.1 r (List.mem_filter.mpr ⟨hr, hmoved.2⟩)
        exact rewrite_path_ne holdroot hnewroot hrb hpath
      · exact ((hmem r).mp hr).2 hpath
    · cases hupd

end

/-! ### The rows and the names that have moved -/

omit [DecidableEq H] in
/-- **What a rename leaves**: the subtree has moved, and the rows are a tree. -/
theorem Tree.rename_moves (h : db.Tree) (hclear : db.RenameClear old new)
    (hcheck : ∃ q, db.renameCheck old new = .ok q) :
    ∃ o t, RenameOk db old new o t ∧ (db.rename old new).1.Tree ∧
      (db.rename old new).1.files.rows =
        (db.files.rows.filter fun r => r.path ≠ new).map (movedRow old new) := by
  obtain ⟨o, t, hok, hrows⟩ := h.renameOk hclear.normal hclear.ne.symm
    (h.not_below_of_check hclear hcheck) (h.rename_isOk hclear hcheck)
  have hmoved : (db.rename old new).1.files.rows =
      (db.files.rows.filter fun r => r.path ≠ new).map (movedRow old new) := by
    rw [hrows]
    refine List.map_congr_left fun r hr => ?_
    obtain ⟨hrow, hne⟩ := List.mem_filter.mp hr
    rw [hok.renamedRow_eq_iff hrow]
    intro hdir _ hlike
    refine .inl (hclear.selects ?_ r hrow (by simpa using hne) hlike)
    rw [← hok.o_path, h.files.getByPath_of_mem hok.o_mem]
    exact hdir
  exact ⟨o, t, hok, hok.tree_of_moved (rename_kept h.files old new).1 hmoved, hmoved⟩

omit [DecidableEq H] in
/-- The rows after the rename, by their numbers. -/
theorem find_of_moved (hrows : db'.files.rows =
      (db.files.rows.filter fun r => r.path ≠ new).map (movedRow old new)) (i : ℕ) :
    db'.files.find i =
      ((db.files.find i).filter fun r => r.path ≠ new).map (movedRow old new) := by
  have hid : ∀ r, (movedRow old new r).id = r.id := by
    intro r
    unfold movedRow
    split <;> rfl
  have hfind := KeyedTable.find_modify (db.files.delete fun r => r.path = new) (fun _ => true)
    (movedRow old new) hid i
  rw [KeyedTable.find_delete] at hfind
  have hsame : db'.files.find i = ((db.files.delete fun r => r.path = new).modify (fun _ => true)
      (movedRow old new) hid).find i := by
    unfold KeyedTable.find
    rw [hrows]
    simp [KeyedTable.modify, KeyedTable.delete]
  rw [hsame, hfind]
  simp

end Db

/-- A row of the old place gets the path in the new one. -/
theorem movedRow_path {old new : Path} {r : FileRow} (h : r.path = old ∨ below old r.path = true) :
    (movedRow old new r).path = movePath old new r.path := by
  rw [movedRow, if_pos h]
  rfl

namespace Fs

variable {fs : Fs bits H} {old new : Path}

/-- **A rename refuses what is due.** -/
theorem renameCheck_view (h : fs.store.db.Tree) (hclear : fs.store.db.RenameClear old new) :
    match fs.view.refusal (.rename old new) with
    | some e => fs.store.db.renameCheck old new = .error (-e)
    | none => ∃ q, fs.store.db.renameCheck old new = .ok q := by
  have hok := h.files
  simp only [FileSystem.refusal, FileSystem.parentRefusal, FileSystem.targetRefusal,
    names_view_eq_none, isDir_view hok]
  unfold Db.renameCheck
  dsimp only
  by_cases hold : (fs.store.db.getByPath old).stIno = 0
  · simp only [hold, if_true]
  by_cases hdest : (fs.store.db.getByPath (branchPath new)).stIno = 0
  · simp only [hold, hdest, if_true, if_false, Option.some_or]
  cases hdir : sIsdir (fs.store.db.getByPath (branchPath new)).stMode with
  | false => simp only [hold, hdest, if_true, if_false, Option.some_or, Bool.not_false]
  | true =>
    by_cases hnew : (fs.store.db.getByPath new).stIno = 0
    · simp [hold, hdest, hnew]
    · have hempty := h.dirEmpty_iff hclear.apart hnew
      have hletters := hclear.letters
      have hprefix : below old new = true → old.isPrefixOf new = true := Db.isPrefixOf_of_below
      cases hod : sIsdir (fs.store.db.getByPath old).stMode with
      | false =>
        cases hnd : sIsdir (fs.store.db.getByPath new).stMode <;> simp [hold, hdest, hnew]
      | true =>
        cases hnd : sIsdir (fs.store.db.getByPath new).stMode with
        | false => simp [hold, hdest, hnew]
        | true =>
          have hsame := hasEntry_view hok new
          by_cases hentry : fs.view.HasEntry new
          · have hfull : fs.store.db.dirEmpty (fs.store.db.getByPath new) = false := by
              rw [Bool.eq_false_iff]
              exact fun hyes => hempty.mp hyes (hsame.mp hentry)
            simp [hold, hdest, hnew, hentry, hfull]
          · have hyes := hempty.mpr fun hyes => hentry (hsame.mpr hyes)
            cases hb : below old new with
            | true =>
              simp [hold, hdest, hnew, hentry, hyes, hprefix hb]
            | false =>
              have hpre : old.isPrefixOf new = false := by
                rw [Bool.eq_false_iff]
                intro hp
                rw [hletters hod hnd hp] at hb
                cases hb
              simp [hold, hdest, hnew, hentry, hyes, hpre]

theorem names_unlink_eq_some {p : Path} {i : ℕ} :
    (fs.view.unlink new).names p = some i ↔ p ≠ new ∧ fs.store.db.named p = some i := by
  show Function.update fs.store.db.named new none p = some i ↔ _
  rw [Function.update_apply]
  split
  · rename_i hp
    simp [hp]
  · rename_i hp
    simp [hp]

section moved

variable {db' : Db H} {o t : FileRow} (hok : Db.RenameOk fs.store.db old new o t)
  (hrows : db'.files.rows =
    (fs.store.db.files.rows.filter fun r => r.path ≠ new).map (movedRow old new))
include hrows

omit [DecidableEq H] in
/-- A row that has moved is that of a row which was not replaced. -/
theorem find_moved_eq_some {i : ℕ} {row : FileRow} : db'.files.find i = some row ↔
    ∃ r, (fs.store.db.files.find i = some r ∧ r.path ≠ new) ∧ movedRow old new r = row := by
  rw [Db.find_of_moved hrows i, Option.map_eq_some_iff]
  simp only [Option.filter_eq_some_iff, decide_eq_true_eq]

include hok

/-- A name in the new place is that of a row in the old one. -/
theorem named_in_new {i : ℕ} {q : Path} (hin : q = new ∨ below new q = true) :
    (∃ row, db'.files.find i = some row ∧ row.path = q) ↔
      (fs.view.unlink new).names (movePath new old q) = some i := by
  obtain ⟨hback, hforth⟩ := movePath_back hok.new_ne_root hok.old_ne_root hin
  rw [names_unlink_eq_some, hok.tree.files.named_eq_some]
  constructor
  · rintro ⟨row, hrow, rfl⟩
    obtain ⟨r, ⟨hr, hne⟩, rfl⟩ := (find_moved_eq_some hrows).mp hrow
    have hmoved : r.path = old ∨ below old r.path = true := by
      by_contra hstay
      rw [movedRow, if_neg hstay] at hin
      rcases hin with heq | hb
      · exact hne heq
      · rw [hok.tree.not_below_leaf hok.new_normal hok.leaf (KeyedTable.mem_of_find hr)] at hb
        cases hb
    rw [movedRow_path hmoved, (movePath_back hok.old_ne_root hok.new_ne_root hmoved).2]
    exact ⟨hne, r, hr, rfl⟩
  · rintro ⟨hne, r, hr, hpath⟩
    rw [← hpath] at hback
    refine ⟨_, (find_moved_eq_some hrows).mpr ⟨r, ⟨hr, hpath ▸ hne⟩, rfl⟩, ?_⟩
    rw [movedRow_path hback, hpath, hforth]

omit [DecidableEq H] in
/-- No row is left in the old place. -/
theorem not_named_in_old {i : ℕ} {row : FileRow} (hrow : db'.files.find i = some row)
    (hin : ¬(row.path = new ∨ below new row.path = true)) :
    ¬(row.path = old ∨ below old row.path = true) := by
  obtain ⟨r, -, rfl⟩ := (find_moved_eq_some hrows).mp hrow
  intro hout
  by_cases hmoved : r.path = old ∨ below old r.path = true
  · rw [movedRow_path hmoved] at hin
    exact hin (movePath_back hok.old_ne_root hok.new_ne_root hmoved).1
  · rw [movedRow, if_neg hmoved] at hout
    exact hmoved hout

/-- The other names are those of the rows that stay. -/
theorem named_elsewhere {i : ℕ} {q : Path} (hin : ¬(q = new ∨ below new q = true))
    (hout : ¬(q = old ∨ below old q = true)) :
    (∃ row, db'.files.find i = some row ∧ row.path = q) ↔
      (fs.view.unlink new).names q = some i := by
  rw [names_unlink_eq_some, hok.tree.files.named_eq_some]
  constructor
  · rintro ⟨row, hrow, rfl⟩
    obtain ⟨r, ⟨hr, hne⟩, rfl⟩ := (find_moved_eq_some hrows).mp hrow
    have hstay : ¬(r.path = old ∨ below old r.path = true) := by
      intro hmoved
      rw [movedRow_path hmoved] at hin
      exact hin (movePath_back hok.old_ne_root hok.new_ne_root hmoved).1
    rw [movedRow, if_neg hstay]
    exact ⟨hne, r, hr, rfl⟩
  · rintro ⟨hne, r, hr, rfl⟩
    refine ⟨r, (find_moved_eq_some hrows).mpr ⟨r, ⟨hr, hne⟩, ?_⟩, rfl⟩
    rw [movedRow, if_neg hout]

/-- The nodes are those of the rows that were not replaced. -/
theorem nodes_moved (hfiles : ∃ files, db' = { fs.store.db with files := files }) (i : ℕ) :
    (fs.setDb db').view.nodes i = (fs.view.unlink new).nodes i := by
  have hbytes : (fs.setDb db').store.byteOf = fs.store.byteOf := by
    obtain ⟨files, rfl⟩ := hfiles
    rfl
  have hnodes : ∀ r, (fs.setDb db').store.nodeOf (movedRow old new r) = fs.store.nodeOf r := by
    intro r
    unfold movedRow
    split <;> exact Node.ext rfl rfl (congrFun hbytes _)
  have hnamed : fs.store.db.named new = some i ↔
      ∃ row, fs.store.db.files.find i = some row ∧ row.path = new :=
    hok.tree.files.named_eq_some
  show (db'.files.find i).map (fs.setDb db').store.nodeOf =
    if fs.store.db.named new = some i then none else
      (fs.store.db.files.find i).map fs.store.nodeOf
  rw [Db.find_of_moved hrows i]
  cases hrow : fs.store.db.files.find i with
  | none =>
    rw [if_neg]
    · rfl
    · intro hname
      obtain ⟨row, hrow', -⟩ := hnamed.mp hname
      rw [hrow] at hrow'
      cases hrow'
  | some row =>
    by_cases hpath : row.path = new
    · rw [if_pos (hnamed.mpr ⟨row, hrow, hpath⟩), Option.filter_some_neg (by simpa using hpath)]
      rfl
    · rw [if_neg, Option.filter_some_pos (by simpa using hpath)]
      · exact congrArg some (hnodes row)
      · intro hname
        obtain ⟨row', hrow', hpath'⟩ := hnamed.mp hname
        rw [hrow] at hrow'
        cases hrow'
        exact hpath hpath'

/-- **Rows that have moved are names that have moved.** -/
theorem view_moved (hfiles : ∃ files, db' = { fs.store.db with files := files })
    (htree : db'.Tree) : (fs.setDb db').view = (fs.view.unlink new).move old new := by
  apply FileSystem.ext
  · funext q
    apply Option.ext
    intro i
    show db'.named q = some i ↔ (if q = new ∨ below new q = true then
        (fs.view.unlink new).names (movePath new old q)
      else if q = old ∨ below old q = true then none else (fs.view.unlink new).names q) = some i
    rw [htree.files.named_eq_some]
    by_cases hin : q = new ∨ below new q = true
    · rw [if_pos hin]
      exact named_in_new hok hrows hin
    · rw [if_neg hin]
      by_cases hout : q = old ∨ below old q = true
      · rw [if_pos hout]
        refine ⟨?_, fun heq => by cases heq⟩
        rintro ⟨row, hrow, rfl⟩
        exact absurd hout (not_named_in_old hok hrows hrow hin)
      · rw [if_neg hout]
        exact named_elsewhere hok hrows hin hout
  · funext i
    exact nodes_moved hok hrows hfiles i
  · rfl

end moved

end Fs

end Wwdedup
