import Wwdedup.Subtree

/-!
# `rename`

`DataBase::rename` selects what is below a directory by a LIKE pattern and rewrites the paths
by the length of the old one.  The rows after a rename that goes through are known exactly
(`rename_ok`): those that the pattern matches are rewritten, whether they are below the
directory or not.  What the checks let through is known as well (`renameCheck_ok_iff`).
-/

namespace Wwdedup

variable {bits : ℕ} {H : Type} [DecidableEq H]

/-- The row at another place of the tree. -/
def FileRow.place (r : FileRow) (path : Path) (depth : ℤ) : FileRow :=
  { r with path := path, depth := depth }

/-- What the loop of `rename` makes of a row. -/
def FileRow.rewrite (old new : Path) (depthDiff : ℤ) (r : FileRow) : FileRow :=
  r.place (movePath old new r.path) (r.depth + depthDiff)

@[simp] theorem FileRow.place_id (r : FileRow) (path : Path) (depth : ℤ) :
    (r.place path depth).id = r.id := rfl

@[simp] theorem FileRow.rewrite_id (old new : Path) (depthDiff : ℤ) (r : FileRow) :
    (r.rewrite old new depthDiff).id = r.id := rfl

/-- What a move of the subtree does to a row. -/
def movedRow (old new : Path) (r : FileRow) : FileRow :=
  if r.path = old ∨ below old r.path = true then
    r.place (movePath old new r.path) (r.depth + (components new - components old))
  else r

namespace Db

/-- The rows that the loop of `rename` runs over. -/
def selected (db : Db H) (old : Path) : List FileRow :=
  db.files.rows.filter fun r => like (old ++ ['/', '%']) r.path

variable {db db' : Db H} {old new path : Path} {d : ℤ}

section

omit [DecidableEq H]

theorem mem_unique {r r' : FileRow} (hr : r ∈ db.files.rows) (hr' : r' ∈ db.files.rows)
    (hid : r.id = r'.id) : r = r' := by
  have h := KeyedTable.find_of_mem hr
  rw [hid, KeyedTable.find_of_mem hr'] at h
  exact (Option.some.inj h).symm

theorem selected_nodup (db : Db H) (old : Path) :
    ((db.selected old).map FileRow.id).Nodup :=
  db.files.nodup.sublist (List.filter_sublist.map _)

theorem mem_of_mem_selected {r : FileRow} (h : r ∈ db.selected old) : r ∈ db.files.rows :=
  (List.mem_filter.mp h).1

theorem updateFilePath_rows {depth : ℤ → ℤ} {id : ℕ}
    (h : db.updateFilePath path depth id = some db') :
    db'.files.rows = db.files.rows.map fun r =>
      if r.id = id then r.place path (depth r.depth) else r := by
  unfold updateFilePath at h
  split at h
  · cases h
  · cases h
    refine List.map_congr_left fun r _ => ?_
    simp only [decide_eq_true_eq]
    rfl

end

omit [DecidableEq H] in
/-- The loop rewrites the rows it runs over. -/
theorem renameBelow_rows {rows : List FileRow} (hnodup : (rows.map FileRow.id).Nodup)
    (hrows : ∀ q ∈ rows, q ∈ db.files.rows) (h : (renameBelow old new d db rows).2 = true) :
    (renameBelow old new d db rows).1.files.rows =
      db.files.rows.map fun r => if r ∈ rows then r.rewrite old new d else r := by
  induction rows generalizing db with
  | nil =>
    rw [renameBelow]
    simp
  | cons q rows ih =>
    rw [renameBelow] at h ⊢
    rw [List.map_cons, List.nodup_cons] at hnodup
    have hq := hrows q (List.mem_cons_self ..)
    have hother : ∀ x ∈ rows, x.id ≠ q.id := fun x hx heq =>
      hnodup.1 (heq ▸ List.mem_map_of_mem hx)
    cases hupd : db.updateFilePath (new ++ q.path.drop old.length) (· + d) q.id with
    | none =>
      rw [hupd] at h
      cases h
    | some db₁ =>
      rw [hupd] at h
      dsimp only at h ⊢
      have hstep := updateFilePath_rows hupd
      have hrows₁ : ∀ x ∈ rows, x ∈ db₁.files.rows := by
        intro x hx
        rw [hstep, List.mem_map]
        exact ⟨x, hrows x (List.mem_cons_of_mem _ hx), if_neg (hother x hx)⟩
      rw [ih hnodup.2 hrows₁ h, hstep, List.map_map]
      refine List.map_congr_left fun r hr => ?_
      rw [Function.comp_apply]
      by_cases hid : r.id = q.id
      · obtain rfl := mem_unique hr hq hid
        have hgone : r.rewrite old new d ∉ rows := fun hmem => hother _ hmem rfl
        rw [if_pos rfl, if_pos (List.mem_cons_self ..)]
        exact if_neg hgone
      · rw [if_neg hid]
        have hne : r ≠ q := fun heq => hid (by rw [heq])
        simp only [List.mem_cons, hne, false_or]

/-! ### What the checks let through -/

section

omit [DecidableEq H]

theorem renameCheck_ok_iff (db : Db H) (old new : Path) :
    (∃ q, db.renameCheck old new = .ok q) ↔
      (db.getByPath old).stIno ≠ 0 ∧ (db.getByPath (branchPath new)).stIno ≠ 0 ∧
        sIsdir (db.getByPath (branchPath new)).stMode = true ∧
        ((db.getByPath new).stIno ≠ 0 →
          sIsdir (db.getByPath new).stMode = sIsdir (db.getByPath old).stMode ∧
          (sIsdir (db.getByPath old).stMode = true →
            db.dirEmpty (db.getByPath new) = true ∧ old.isPrefixOf new = false)) := by
  unfold renameCheck
  dsimp only
  by_cases hold : (db.getByPath old).stIno = 0
  · simp [hold]
  by_cases hdest : (db.getByPath (branchPath new)).stIno = 0
  · simp [hold, hdest]
  by_cases hdir : sIsdir (db.getByPath (branchPath new)).stMode = true
  · by_cases hnew : (db.getByPath new).stIno = 0
    · simp [hold, hdest, hdir, hnew]
    · cases hod : sIsdir (db.getByPath old).stMode <;>
        cases hnd : sIsdir (db.getByPath new).stMode <;>
        cases hempty : db.dirEmpty (db.getByPath new) <;>
        cases hpre : old.isPrefixOf new <;>
        simp [hold, hdest, hdir, hnew]
  · simp [hold, hdest, hdir]

theorem renameCheck_eq_ok {q : FileInfo H × FileInfo H} (h : db.renameCheck old new = .ok q) :
    q = (db.getByPath old, db.getByPath (branchPath new)) := by
  unfold renameCheck at h
  dsimp only at h
  repeat' split at h
  all_goals first | exact (Except.ok.inj h).symm | cases h

theorem renameCheck_error {e : ℤ} (h : db.renameCheck old new = .error e) :
    e < 0 ∧ e ≠ -eio := by
  unfold renameCheck at h
  dsimp only at h
  repeat' split at h
  all_goals cases h
  all_goals exact ⟨by decide, by decide⟩

theorem rename_of_error {e : ℤ} (h : db.renameCheck old new = .error e) :
    db.rename old new = (db, e) := by
  unfold rename
  rw [h]

end

/-! ### The rows after a rename -/

/-- What a rename does to a row: `o` is the row of the old path, `t` that of the new parent. -/
def renamedRow (old new : Path) (o t r : FileRow) : FileRow :=
  if r.id = o.id then r.place new (t.depth + 1)
  else if sIsdir o.mode = true ∧ like (old ++ ['/', '%']) r.path = true then
    r.rewrite old new (t.depth + 1 - o.depth)
  else r

omit [DecidableEq H] in
/-- The loop of `rename`, which is run for a directory only. -/
theorem renameBelow_selected {isDir : Bool} {below : Db H × Bool}
    (hbelow : (if isDir = true then renameBelow old new d db (db.selected old) else (db, true)) =
      below) (h : below.2 = true) :
    below.1.files.rows = db.files.rows.map fun r =>
      if isDir = true ∧ like (old ++ ['/', '%']) r.path = true then r.rewrite old new d else r := by
  subst hbelow
  cases isDir with
  | false => simp
  | true =>
    simp only [if_true] at h ⊢
    rw [renameBelow_rows (db.selected_nodup old) (fun _ => mem_of_mem_selected) h]
    refine List.map_congr_left fun r hr => ?_
    simp only [selected, List.mem_filter, hr, true_and]

/-- The row of the old path is placed last, whether the loop ran over it or not. -/
theorem renamedRow_of_rewrite {o t r q : FileRow}
    (hq : q = if sIsdir o.mode = true ∧ like (old ++ ['/', '%']) r.path = true then
      r.rewrite old new (t.depth + 1 - o.depth) else r) :
    (if q.id = o.id then q.place new (t.depth + 1) else q) = renamedRow old new o t r := by
  have hid : q.id = r.id := by
    rw [hq]
    split <;> rfl
  have hplace : q.place new (t.depth + 1) = r.place new (t.depth + 1) := by
    rw [hq]
    split <;> rfl
  rw [hid, hplace, hq]
  rfl

omit [DecidableEq H] in
/-- **The rows after a rename that goes through**: the row at the new path is gone, that of the
old path is there, and the rows that the pattern matches are rewritten. -/
theorem rename_ok (hok : db.FilesOk) (h : (db.rename old new).2 = 0) :
    ∃ o ∈ db.files.rows, ∃ t ∈ db.files.rows, o.path = old ∧ t.path = branchPath new ∧
      sIsdir t.mode = true ∧ (∃ q, db.renameCheck old new = .ok q) ∧
      (db.rename old new).1.files.rows =
        (db.files.rows.filter fun r => r.path ≠ new).map (renamedRow old new o t) := by
  cases hcheck : db.renameCheck old new with
  | error e =>
    rw [rename_of_error hcheck] at h
    exact absurd h (renameCheck_error hcheck).1.ne
  | ok q =>
    obtain ⟨hold, hdest, hdir, -⟩ := (renameCheck_ok_iff db old new).mp ⟨q, hcheck⟩
    obtain ⟨o, ho, hopath, hoinfo⟩ := getByPath_of_ne_zero hold
    obtain ⟨t, ht, htpath, htinfo⟩ := getByPath_of_ne_zero hdest
    rw [htinfo] at hdir
    refine ⟨o, ho, t, ht, hopath, htpath, hdir, ⟨q, rfl⟩, ?_⟩
    obtain rfl := renameCheck_eq_ok hcheck
    unfold rename at h ⊢
    rw [hcheck] at h ⊢
    dsimp only at h ⊢
    rw [hoinfo, htinfo] at h ⊢
    -- the target goes first
    have hremoved : (if (db.getByPath new).stIno ≠ 0 then (db.remove new).1 else db).files.rows =
        db.files.rows.filter fun r => r.path ≠ new := by
      split
      · show db.files.rows.filter _ = _
        refine List.filter_congr fun r _ => ?_
        simp
      · rename_i hfree
        refine (List.filter_eq_self.mpr fun r hr => ?_).symm
        simpa using hok.absent (not_not.mp hfree) r hr
    generalize (if (db.getByPath new).stIno ≠ 0 then (db.remove new).1 else db) = db₁
      at h hremoved ⊢
    generalize hbelow : (if sIsdir o.info.stMode = true then _ else _ : Db H × Bool) = below
      at h ⊢
    cases hdone : below.2 with
    | false =>
      rw [hdone] at h
      exact absurd (show (-eio : ℤ) = 0 from h) (by decide)
    | true =>
      have hrows := renameBelow_selected hbelow hdone
      rw [hdone] at h
      simp only [Bool.not_true, Bool.false_eq_true, if_false] at h ⊢
      cases hupd : below.1.updateFilePath new (fun _ => t.info.depth + 1) o.info.stIno with
      | none =>
        rw [hupd] at h
        exact absurd (show (-eio : ℤ) = 0 from h) (by decide)
      | some db₂ =>
        dsimp only
        rw [updateFilePath_rows hupd, hrows, hremoved, List.map_map]
        refine List.map_congr_left fun r _ => ?_
        exact renamedRow_of_rewrite rfl

/-! ### The subtree and no other row -/

omit [DecidableEq H] in
/-- What is below a path has a directory there. -/
theorem Tree.dir_of_below (h : db.Tree) (hold : NormalPath old) {r : FileRow}
    (hr : r ∈ db.files.rows) (hbelow : below old r.path = true) :
    ∃ o ∈ db.files.rows, o.path = old ∧ sIsdir o.mode = true := by
  -- from parent to parent
  generalize hn : components r.path = n
  induction n using Nat.strong_induction_on generalizing r with
  | _ n ih =>
    have hroot := ne_root_of_below hbelow (h.normal r hr) hold
    obtain ⟨t, ht, htpath, htdir⟩ := h.parent r hr hroot
    have hlt := components_branchPath (h.normal r hr) hroot
    rw [← htpath, hn] at hlt
    rcases (below_iff_branchPath hold (h.normal r hr) hroot).mp hbelow with heq | hup
    · exact ⟨t, ht, htpath.trans heq, htdir⟩
    · rw [← htpath] at hup
      exact ih _ (by omega) ht hup rfl

/-- The rename that a tree lets through: the rows of the old path and of the new parent, and
what holds of the paths. -/
structure RenameOk (db : Db H) (old new : Path) (o t : FileRow) : Prop where
  tree : db.Tree
  o_mem : o ∈ db.files.rows
  o_path : o.path = old
  t_mem : t ∈ db.files.rows
  t_path : t.path = branchPath new
  t_dir : sIsdir t.mode = true
  new_normal : NormalPath new
  new_ne_root : new ≠ ['/']
  old_ne_root : old ≠ ['/']
  new_ne : new ≠ old
  not_below : below old new = false
  leaf : ∀ r ∈ db.files.rows, r.path ≠ ['/'] → branchPath r.path ≠ new

omit [DecidableEq H] in
/-- The new path is free, or that of a file or of a directory without entries. -/
theorem Tree.leaf_of_renameCheck (h : db.Tree) (hcheck : ∃ q, db.renameCheck old new = .ok q) :
    ∀ r ∈ db.files.rows, r.path ≠ ['/'] → branchPath r.path ≠ new := by
  obtain ⟨-, -, -, hexists⟩ := (renameCheck_ok_iff db old new).mp hcheck
  by_cases hfree : (db.getByPath new).stIno = 0
  · intro r hr hroot hbranch
    obtain ⟨t, ht, htpath, -⟩ := h.parent r hr hroot
    exact h.files.absent hfree t ht (htpath.trans hbranch)
  · obtain ⟨htype, hempty⟩ := hexists hfree
    cases hdir : sIsdir (db.getByPath new).stMode with
    | false => exact h.leaf_of_not_dir hdir
    | true => exact h.leaf_of_dirEmpty (hempty (htype ▸ hdir)).1

theorem below_root (hp : NormalPath path) (hroot : path ≠ ['/']) : below ['/'] path = true := by
  obtain ⟨ps, hps, rfl⟩ := hp
  have hnil : Names [] := fun _ hn => absurd hn List.not_mem_nil
  refine (below_pathOf hnil hps).mpr ⟨ps, ?_, rfl⟩
  rintro rfl
  exact hroot rfl

omit [DecidableEq H] in
theorem Tree.renameOk (h : db.Tree) (hnew : NormalPath new) (hne : new ≠ old)
    (hbelow : below old new = false) (hret : (db.rename old new).2 = 0) :
    ∃ o t, RenameOk db old new o t ∧ (db.rename old new).1.files.rows =
      (db.files.rows.filter fun r => r.path ≠ new).map (renamedRow old new o t) := by
  obtain ⟨o, ho, t, ht, hopath, htpath, htdir, hcheck, hrows⟩ := rename_ok h.files hret
  have hnewroot : new ≠ ['/'] := by
    rintro rfl
    obtain ⟨names, hnames, hpath⟩ := h.normal t ht
    rw [htpath] at hpath
    cases names with
    | nil => cases hpath
    | cons n names => cases hpath
  have holdroot : old ≠ ['/'] := by
    rintro rfl
    rw [below_root hnew hnewroot] at hbelow
    cases hbelow
  exact ⟨o, t, ⟨h, ho, hopath, ht, htpath, htdir, hnew, hnewroot, holdroot, hne, hbelow,
    h.leaf_of_renameCheck hcheck⟩, hrows⟩

section moved

variable {o t r : FileRow} (hok : RenameOk db old new o t)

include hok

section

omit [DecidableEq H]

theorem RenameOk.old_normal : NormalPath old := hok.o_path ▸ hok.tree.normal o hok.o_mem

theorem RenameOk.depthDiff :
    t.depth + 1 - o.depth = (components new - components old : ℤ) := by
  rw [hok.tree.depth t hok.t_mem, hok.tree.depth o hok.o_mem, hok.t_path, hok.o_path,
    components_branchPath hok.new_normal hok.new_ne_root]
  rfl

/-- The row of the new parent is not moved. -/
theorem RenameOk.parent_outside :
    ¬(branchPath new = old ∨ below old (branchPath new) = true) := by
  rw [← below_iff_branchPath hok.old_normal hok.new_normal hok.new_ne_root, hok.not_below]
  exact Bool.false_ne_true

/-- A row is where the move of the subtree puts it, unless the pattern matches it by accident
and the rewriting changes it. -/
theorem RenameOk.renamedRow_eq_iff (hr : r ∈ db.files.rows) :
    renamedRow old new o t r = movedRow old new r ↔
      (sIsdir o.mode = true → r.path ≠ old → like (old ++ ['/', '%']) r.path = true →
        below old r.path = true ∨
          movePath old new r.path = r.path ∧ components new = components old) := by
  unfold renamedRow movedRow
  rw [hok.depthDiff]
  by_cases hid : r.id = o.id
  · obtain rfl := mem_unique hr hok.o_mem hid
    rw [if_pos rfl, if_pos (.inl hok.o_path), hok.o_path, movePath_self]
    have hdepth : t.depth + 1 = r.depth + (components new - components old) := by
      rw [← hok.depthDiff]
      omega
    rw [hdepth]
    exact ⟨fun _ _ hne => absurd rfl hne, fun _ => rfl⟩
  · have hpath : r.path ≠ old := fun heq =>
      hid (by rw [hok.tree.files.paths r hr o hok.o_mem (heq.trans hok.o_path.symm)])
    rw [if_neg hid]
    cases hbelow : below old r.path with
    | true =>
      obtain ⟨o', ho', hopath', hdir⟩ := hok.tree.dir_of_below hok.old_normal hr hbelow
      obtain rfl := hok.tree.files.paths o' ho' o hok.o_mem (hopath'.trans hok.o_path.symm)
      rw [if_pos ⟨hdir, like_of_below hok.old_ne_root hbelow⟩, if_pos (.inr rfl)]
      exact ⟨fun _ _ _ _ => .inl rfl, fun _ => rfl⟩
    | false =>
      rw [if_neg (c := r.path = old ∨ false = true) (by simpa using hpath)]
      by_cases hsel : sIsdir o.mode = true ∧ like (old ++ ['/', '%']) r.path = true
      · rw [if_pos hsel]
        have hfixed : r.rewrite old new (components new - components old) = r ↔
            movePath old new r.path = r.path ∧ components new = components old := by
          obtain ⟨id, p, depth, size, mode⟩ := r
          simp only [FileRow.rewrite, FileRow.place, FileRow.mk.injEq, true_and, and_true]
          refine and_congr_right fun _ => ?_
          omega
        rw [hfixed]
        exact ⟨fun hfix _ _ _ => .inr hfix, fun hall =>
          (hall hsel.1 hpath hsel.2).resolve_left Bool.false_ne_true⟩
      · rw [if_neg hsel]
        exact ⟨fun _ hdir _ hlike => absurd ⟨hdir, hlike⟩ hsel, fun _ => rfl⟩

/-- A moved row has the path that the move of the subtree gives it, and its depth. -/
theorem RenameOk.movedRow_path (hr : r ∈ db.files.rows) :
    NormalPath (movedRow old new r).path ∧
      (movedRow old new r).depth = components (movedRow old new r).path := by
  have hdepth := hok.tree.depth r hr
  unfold movedRow
  by_cases hpath : r.path = old
  · rw [if_pos (.inl hpath), hpath, movePath_self, hdepth, hpath]
    refine ⟨hok.new_normal, ?_⟩
    show (components old + (components new - components old) : ℤ) = components new
    omega
  · by_cases hbelow : below old r.path = true
    · obtain ⟨hnormal, -, hcomponents, -⟩ := movePath_below hok.old_normal hok.old_ne_root
        hok.new_normal hok.new_ne_root (hok.tree.normal r hr) hbelow
      rw [if_pos (.inr hbelow), hdepth]
      exact ⟨hnormal, hcomponents.symm⟩
    · rw [if_neg (not_or.mpr ⟨hpath, hbelow⟩)]
      exact ⟨hok.tree.normal r hr, hdepth⟩

/-- The parent of a moved row is the moved parent, or the new one. -/
theorem RenameOk.movedRow_parent (hr : r ∈ db.files.rows)
    (hroot : (movedRow old new r).path ≠ ['/']) :
    ∃ d ∈ db.files.rows, d.path ≠ new ∧
      (movedRow old new d).path = branchPath (movedRow old new r).path ∧
      sIsdir (movedRow old new d).mode = true := by
  have hmode : ∀ d, (movedRow old new d).mode = d.mode := by
    intro d
    unfold movedRow
    split <;> rfl
  have hstays : ∀ d : FileRow, ¬(d.path = old ∨ below old d.path = true) →
      (movedRow old new d).path = d.path := fun d hd => by rw [movedRow, if_neg hd]
  have hmoves : ∀ d : FileRow, d.path = old ∨ below old d.path = true →
      (movedRow old new d).path = movePath old new d.path :=
    fun d hd => by rw [movedRow, if_pos hd]; rfl
  by_cases hpath : r.path = old
  · -- the directory itself goes under the new parent
    refine ⟨t, hok.t_mem, ?_, ?_, by rw [hmode]; exact hok.t_dir⟩
    · rw [hok.t_path]
      intro heq
      have hcomp := components_branchPath hok.new_normal hok.new_ne_root
      rw [heq] at hcomp
      omega
    · rw [hmoves r (.inl hpath), hpath, movePath_self, hstays t, hok.t_path]
      rw [hok.t_path]
      exact hok.parent_outside
  · have hrroot : r.path ≠ ['/'] := by
      by_cases hbelow : below old r.path = true
      · exact ne_root_of_below hbelow (hok.tree.normal r hr) hok.old_normal
      · rw [hstays r (not_or.mpr ⟨hpath, hbelow⟩)] at hroot
        exact hroot
    obtain ⟨d, hd, hdpath, hdir⟩ := hok.tree.parent r hr hrroot
    have hup := below_iff_branchPath hok.old_normal (hok.tree.normal r hr) hrroot
    rw [← hdpath] at hup
    refine ⟨d, hd, ?_, ?_, by rw [hmode]; exact hdir⟩
    · rw [hdpath]
      exact hok.leaf r hr hrroot
    · by_cases hbelow : below old r.path = true
      · obtain ⟨-, -, -, hbranch⟩ := movePath_below hok.old_normal hok.old_ne_root
          hok.new_normal hok.new_ne_root (hok.tree.normal r hr) hbelow
        rw [hmoves r (.inr hbelow), hbranch, ← hdpath, hmoves d (hup.mp hbelow)]
      · rw [hstays r (not_or.mpr ⟨hpath, hbelow⟩), hstays d (fun h => hbelow (hup.mpr h)), hdpath]

/-- The moved rows are a tree. -/
theorem RenameOk.tree_of_moved (hfiles : db'.FilesOk)
    (hrows : db'.files.rows =
      (db.files.rows.filter fun r => r.path ≠ new).map (movedRow old new)) : db'.Tree := by
  have hmem : ∀ {q}, q ∈ db'.files.rows ↔
      ∃ r, (r ∈ db.files.rows ∧ r.path ≠ new) ∧ movedRow old new r = q := by
    intro q
    rw [hrows, List.mem_map]
    simp only [List.mem_filter, ne_eq, decide_eq_true_eq]
  refine ⟨hfiles, fun q hq => ?_, fun q hq => ?_, fun q hq hroot => ?_⟩
  · obtain ⟨r, ⟨hr, -⟩, rfl⟩ := hmem.mp hq
    exact (hok.movedRow_path hr).1
  · obtain ⟨r, ⟨hr, -⟩, rfl⟩ := hmem.mp hq
    exact (hok.movedRow_path hr).2
  · obtain ⟨r, ⟨hr, -⟩, rfl⟩ := hmem.mp hq
    obtain ⟨d, hd, hdnew, hdpath, hdir⟩ := hok.movedRow_parent hr hroot
    exact ⟨_, hmem.mpr ⟨d, ⟨hd, hdnew⟩, rfl⟩, hdpath, hdir⟩

end

end moved

end Db

omit [DecidableEq H] in
/-- **When a rename moves the subtree and nothing else**: a directory that is renamed to a path
not below it leaves a tree with the subtree moved exactly when each other row that the pattern
`old/%` matches is below the directory or is left as it is by the rewriting.  For a file there
is no pattern. -/
theorem rename_moves_iff (db : Db H) (old new : Path) (h : db.Tree) (hnew : NormalPath new)
    (hne : new ≠ old) (hbelow : below old new = false) (hret : (db.rename old new).2 = 0) :
    ((db.rename old new).1.files.rows =
        (db.files.rows.filter fun r => r.path ≠ new).map (movedRow old new) ∧
      (db.rename old new).1.Tree) ↔
    (sIsdir (db.getByPath old).stMode = true →
      ∀ r ∈ db.files.rows, r.path ≠ new → r.path ≠ old → like (old ++ ['/', '%']) r.path = true →
        below old r.path = true ∨
          movePath old new r.path = r.path ∧ components new = components old) := by
  obtain ⟨o, t, hok, hrows⟩ := h.renameOk hnew hne hbelow hret
  have hdir : sIsdir (db.getByPath old).stMode = sIsdir o.mode := by
    rw [← hok.o_path, h.files.getByPath_of_mem hok.o_mem]
    rfl
  have hkept : ∀ {r}, r ∈ (db.files.rows.filter fun r => decide (r.path ≠ new)) ↔
      r ∈ db.files.rows ∧ r.path ≠ new := by
    intro r
    rw [List.mem_filter, decide_eq_true_eq]
  rw [hdir]
  constructor
  · rintro ⟨hmoved, -⟩ hodir r hr hrnew hrold hlike
    rw [hrows] at hmoved
    have heq := List.map_inj_left.mp hmoved r (hkept.mpr ⟨hr, hrnew⟩)
    exact (hok.renamedRow_eq_iff hr).mp heq hodir hrold hlike
  · intro hall
    have hmoved : (db.rename old new).1.files.rows =
        (db.files.rows.filter fun r => r.path ≠ new).map (movedRow old new) := by
      rw [hrows]
      refine List.map_congr_left fun r hr => ?_
      obtain ⟨hr, hrnew⟩ := hkept.mp hr
      exact (hok.renamedRow_eq_iff hr).mpr fun hodir hrold hlike =>
        hall hodir r hr hrnew hrold hlike
    exact ⟨hmoved, hok.tree_of_moved (Db.rename_kept h.files old new).1 hmoved⟩

/-- The directories `a` and `A`, and a file in the second. -/
def caseDirs : Db (List UInt8) :=
  let db := (Fs.init 0 (List UInt8)).store.db
  let db := (db.create ['/', 'a'] sIfdir).1
  let db := (db.create ['/', 'A'] sIfdir).1
  (db.create ['/', 'A', '/', 'x'] sIfreg).1

theorem caseDirs_tree : caseDirs.Tree :=
  ((Fs.init_tree.create (@Names.normalPath [['a']] (by decide)) _).create
    (@Names.normalPath [['A']] (by decide)) _).create
      (@Names.normalPath [['A'], ['x']] (by decide)) _

example : (caseDirs.rename ['/', 'A'] ['/', 'b']).1.files.rows.map (fun r => r.path) =
    [['/'], ['/', 'a'], ['/', 'b'], ['/', 'b', '/', 'x']] := by decide

/-- Nothing but its entry matches the pattern of `A`. -/
theorem rename_moves_iff_entry :
    ((caseDirs.rename ['/', 'A'] ['/', 'b']).1.files.rows =
        (caseDirs.files.rows.filter fun r => r.path ≠ ['/', 'b']).map
          (movedRow ['/', 'A'] ['/', 'b']) ∧
      (caseDirs.rename ['/', 'A'] ['/', 'b']).1.Tree) ↔
    (sIsdir (caseDirs.getByPath ['/', 'A']).stMode = true →
      ∀ r ∈ caseDirs.files.rows, r.path ≠ ['/', 'b'] → r.path ≠ ['/', 'A'] →
        like (['/', 'A'] ++ ['/', '%']) r.path = true →
        below ['/', 'A'] r.path = true ∨
          movePath ['/', 'A'] ['/', 'b'] r.path = r.path ∧
            components ['/', 'b'] = components ['/', 'A']) :=
  rename_moves_iff caseDirs ['/', 'A'] ['/', 'b'] caseDirs_tree
    (@Names.normalPath [['b']] (by decide)) (by decide) (by decide) (by decide)

/-- **A rename takes other directories' files along.**  The pattern of `a` matches what is in
`A`: renaming `a` moves the file `x` of `A` under the new name. -/
theorem rename_takes_other_case :
    (¬∀ (db : Db (List UInt8)) (old new : Path), db.Tree → NormalPath new → new ≠ old →
      below old new = false → (db.rename old new).2 = 0 →
      (db.rename old new).1.files.rows =
          (db.files.rows.filter fun r => r.path ≠ new).map (movedRow old new) ∧
        (db.rename old new).1.Tree) ∧
    (caseDirs.rename ['/', 'a'] ['/', 'b']).1.files.rows.map (fun r => r.path) =
      [['/'], ['/', 'b'], ['/', 'A'], ['/', 'b', '/', 'x']] := by
  refine ⟨fun hall => ?_, by decide⟩
  obtain ⟨hrows, -⟩ := hall caseDirs ['/', 'a'] ['/', 'b'] caseDirs_tree
    (@Names.normalPath [['b']] (by decide)) (by decide) (by decide) (by decide)
  revert hrows
  decide

/-! ### What is refused -/

section refused

variable {db : Db H} {old new : Path}

namespace Db

/-- The directory has an entry. -/
def HasEntry (db : Db H) (dir : Path) : Prop :=
  ∃ r ∈ db.files.rows, r.path ≠ ['/'] ∧ branchPath r.path = dir

/-- What a rename has to refuse.  A file is of the type of a directory or not. -/
def MustRefuse (db : Db H) (old new : Path) : Prop :=
  (db.getByPath old).stIno = 0 ∨
  (db.getByPath (branchPath new)).stIno = 0 ∨
  sIsdir (db.getByPath (branchPath new)).stMode = false ∨
  sIsdir (db.getByPath old).stMode = true ∧ below old new = true ∨
  (db.getByPath new).stIno ≠ 0 ∧ new ≠ old ∧
    (sIsdir (db.getByPath new).stMode ≠ sIsdir (db.getByPath old).stMode ∨
      sIsdir (db.getByPath new).stMode = true ∧ db.HasEntry new)

/-- The rename fails and changes no row where it has to, and goes through elsewhere. -/
structure RenameRefuses (db : Db H) (old new : Path) : Prop where
  refused : (db.rename old new).2 ≠ 0 ∧ (db.rename old new).1.files.rows = db.files.rows ↔
    db.MustRefuse old new
  same : old = new → ¬db.MustRefuse old new →
    (db.rename old new).2 = 0 ∧ (db.rename old new).1.files.rows = db.files.rows
  other : ¬db.MustRefuse old new → (db.rename old new).2 = 0

/-- The checks of `rename` and the refusals that are due differ: both paths are the same; or a
directory goes to a free place below itself; or its target is a directory without an entry that
the pattern of `dirEmpty` finds one for, or whose path only begins with the letters of the old
one. -/
def RenameDiffers (db : Db H) (old new : Path) : Prop :=
  (db.getByPath old).stIno ≠ 0 ∧ (db.getByPath (branchPath new)).stIno ≠ 0 ∧
    sIsdir (db.getByPath (branchPath new)).stMode = true ∧
    (old = new ∨
      sIsdir (db.getByPath old).stMode = true ∧
        ((db.getByPath new).stIno = 0 ∧ below old new = true ∨
          (db.getByPath new).stIno ≠ 0 ∧ sIsdir (db.getByPath new).stMode = true ∧
            below old new = false ∧ ¬db.HasEntry new ∧
            (db.dirEmpty (db.getByPath new) = false ∨ old.isPrefixOf new = true)))

section

omit [DecidableEq H]

theorem rename_of_ok {q : FileInfo H × FileInfo H} (h : db.renameCheck old new = .ok q) :
    (db.rename old new).2 = 0 ∨ (db.rename old new).2 = -eio := by
  unfold rename
  rw [h]
  dsimp only
  repeat' split
  all_goals first | exact .inr rfl | exact .inl rfl

/-- Without an exception the result says whether the checks let the rename through. -/
theorem rename_eq_zero_iff (hio : (db.rename old new).2 ≠ -eio) :
    (db.rename old new).2 = 0 ↔ ∃ q, db.renameCheck old new = .ok q := by
  cases hcheck : db.renameCheck old new with
  | error e =>
    rw [rename_of_error hcheck]
    refine ⟨fun h => absurd h (renameCheck_error hcheck).1.ne, ?_⟩
    rintro ⟨q, hq⟩
    cases hq
  | ok q => exact ⟨fun _ => ⟨q, rfl⟩, fun _ => (rename_of_ok hcheck).resolve_right hio⟩

/-- A rename that is not let through changes nothing. -/
theorem rename_unchanged (h : ¬∃ q, db.renameCheck old new = .ok q) :
    (db.rename old new).1 = db := by
  cases hcheck : db.renameCheck old new with
  | error e => rw [rename_of_error hcheck]
  | ok q => exact absurd ⟨q, hcheck⟩ h

/-- A file that is renamed to itself is lost. -/
theorem rename_self_changes (hok : db.FilesOk) (hret : (db.rename old old).2 = 0) :
    (db.rename old old).1.files.rows ≠ db.files.rows := by
  obtain ⟨o, ho, t, -, hopath, -, -, -, hrows⟩ := rename_ok hok hret
  intro heq
  have hlen := congrArg List.length (hrows.symm.trans heq)
  rw [List.length_map] at hlen
  have hall := List.length_filter_eq_length_iff.mp hlen o ho
  simp [hopath] at hall

/-- The result and the rows are as they should be when the checks are, and no path is renamed
to itself. -/
theorem renameRefuses_iff (hok : db.FilesOk) (hio : (db.rename old new).2 ≠ -eio) :
    db.RenameRefuses old new ↔
      ((¬∃ q, db.renameCheck old new = .ok q) ↔ db.MustRefuse old new) ∧
        (old = new → db.MustRefuse old new) := by
  have hzero := rename_eq_zero_iff hio
  have hrefused : (db.rename old new).2 ≠ 0 ∧
      (db.rename old new).1.files.rows = db.files.rows ↔
        ¬∃ q, db.renameCheck old new = .ok q := by
    rw [ne_eq, hzero]
    exact and_iff_left_of_imp fun h => by rw [rename_unchanged h]
  constructor
  · rintro ⟨h, hsame, -⟩
    rw [hrefused] at h
    refine ⟨h, fun heq => ?_⟩
    by_contra hmust
    obtain ⟨hret, hrows⟩ := hsame heq hmust
    subst heq
    exact rename_self_changes hok hret hrows
  · rintro ⟨h, hsame⟩
    refine ⟨hrefused.trans h, fun heq hmust => absurd (hsame heq) hmust, fun hmust => ?_⟩
    rw [hzero]
    by_contra hcheck
    exact hmust (h.mp hcheck)

end

theorem isPrefixOf_of_below (h : below old new = true) : old.isPrefixOf new = true := by
  rw [below, Bool.and_eq_true, List.isPrefixOf_iff_prefix] at h
  rw [List.isPrefixOf_iff_prefix]
  refine List.IsPrefix.trans ?_ h.1
  unfold entriesPrefix
  split
  · exact List.prefix_rfl
  · exact List.prefix_append ..

omit [DecidableEq H] in
/-- The checks refuse what must be refused when they do not differ from it. -/
theorem Tree.renameCheck_iff (h : db.Tree) (hold : (db.getByPath old).stIno ≠ 0)
    (hdest : (db.getByPath (branchPath new)).stIno ≠ 0)
    (hdir : sIsdir (db.getByPath (branchPath new)).stMode = true) (hne : old ≠ new) :
    ((¬∃ q, db.renameCheck old new = .ok q) ↔ db.MustRefuse old new) ↔
      ¬db.RenameDiffers old new := by
  rw [renameCheck_ok_iff, MustRefuse, RenameDiffers]
  simp only [hold, hdest, hdir, hne, hne.symm, ne_eq, not_false_eq_true, true_and, false_or,
    Bool.true_eq_false]
  by_cases hnew : (db.getByPath new).stIno = 0
  · -- the checks refuse nothing
    simp [hnew]
  · have hentry : db.HasEntry new → db.dirEmpty (db.getByPath new) = false := by
      rintro ⟨r, hr, hroot, hbranch⟩
      by_contra hempty
      exact h.leaf_of_dirEmpty (by simpa using hempty) r hr hroot hbranch
    have hbegins : below old new = true → old.isPrefixOf new = true := isPrefixOf_of_below
    simp only [hnew, not_false_eq_true, true_and, false_and, false_or, forall_const]
    cases hod : sIsdir (db.getByPath old).stMode <;>
      cases hnd : sIsdir (db.getByPath new).stMode
    · simp
    · simp
    · simp
    · -- both are directories
      simp only [true_and, not_true, false_or, forall_const]
      cases hbelow : below old new with
      | true => simp [hbegins hbelow]
      | false =>
        by_cases hhas : db.HasEntry new
        · simp [hhas, hentry hhas]
        · cases db.dirEmpty (db.getByPath new) <;> cases old.isPrefixOf new <;> simp [hhas]

end Db

omit [DecidableEq H] in
/-- **When `rename` refuses exactly what must be refused**: in a tree, without an exception,
exactly where its checks do not differ from what is due. -/
theorem rename_refuses_iff (db : Db H) (old new : Path) (h : db.Tree)
    (hio : (db.rename old new).2 ≠ -eio) :
    db.RenameRefuses old new ↔ ¬db.RenameDiffers old new := by
  rw [Db.renameRefuses_iff h.files hio]
  by_cases hplace : (db.getByPath old).stIno ≠ 0 ∧ (db.getByPath (branchPath new)).stIno ≠ 0 ∧
      sIsdir (db.getByPath (branchPath new)).stMode = true
  · obtain ⟨hold, hdest, hdir⟩ := hplace
    by_cases hsame : old = new
    · -- the rename of a path to itself must not be refused
      subst hsame
      have hmust : ¬db.MustRefuse old old := by
        simp [Db.MustRefuse, hold, hdest, hdir, not_below_self]
      exact ⟨fun hall => absurd (hall.2 rfl) hmust,
        fun hdiffers => absurd ⟨hold, hdest, hdir, .inl rfl⟩ hdiffers⟩
    · rw [← h.renameCheck_iff hold hdest hdir hsame]
      exact and_iff_left fun heq => absurd heq hsame
  · have hmust : db.MustRefuse old new := by
      unfold Db.MustRefuse
      by_contra hall
      simp only [not_or, Bool.not_eq_false] at hall
      exact hplace ⟨hall.1, hall.2.1, hall.2.2.1⟩
    have hcheck : ¬∃ q, db.renameCheck old new = .ok q := by
      rw [Db.renameCheck_ok_iff]
      rintro ⟨hold, hdest, hdir, -⟩
      exact hplace ⟨hold, hdest, hdir⟩
    refine ⟨fun _ hdiffers => ?_, fun _ => ⟨⟨fun _ => hmust, fun _ => hcheck⟩, fun _ => hmust⟩⟩
    exact hplace ⟨hdiffers.1, hdiffers.2.1, hdiffers.2.2.1⟩

/-- A file goes to a directory's name. -/
theorem rename_refuses_iff_type :
    caseDirs.RenameRefuses ['/', 'A', '/', 'x'] ['/', 'a'] ↔
      ¬caseDirs.RenameDiffers ['/', 'A', '/', 'x'] ['/', 'a'] :=
  rename_refuses_iff caseDirs ['/', 'A', '/', 'x'] ['/', 'a'] caseDirs_tree (by decide)

/-- **A file that is renamed to itself is lost**, a directory can be put below itself, and an
empty directory cannot take the place of another one whose name is longer by a letter. -/
theorem rename_self_loses :
    (¬∀ (db : Db (List UInt8)) (old new : Path), db.Tree → (db.rename old new).2 ≠ -eio →
      db.RenameRefuses old new) ∧
    ((caseDirs.rename ['/', 'A', '/', 'x'] ['/', 'A', '/', 'x']).2 = 0 ∧
      (caseDirs.rename ['/', 'A', '/', 'x'] ['/', 'A', '/', 'x']).1.files.rows.map
        (fun r => r.path) = [['/'], ['/', 'a'], ['/', 'A']]) ∧
    ((caseDirs.rename ['/', 'a'] ['/', 'a', '/', 'b']).2 = 0 ∧
      ((caseDirs.rename ['/', 'a'] ['/', 'a', '/', 'b']).1.getByPath ['/', 'a']).stIno = 0) ∧
    ((caseDirs.create ['/', 'a', 'b'] sIfdir).1.rename ['/', 'a'] ['/', 'a', 'b']).2 = -einval := by
  refine ⟨fun hall => ?_, by decide, by decide, by decide⟩
  have h := hall caseDirs ['/', 'A', '/', 'x'] ['/', 'A', '/', 'x'] caseDirs_tree (by decide)
  have hmust : ¬caseDirs.MustRefuse ['/', 'A', '/', 'x'] ['/', 'A', '/', 'x'] := by
    unfold Db.MustRefuse
    simp only [not_or, not_and]
    exact ⟨by decide, by decide, by decide, by decide, fun _ hne => absurd rfl hne⟩
  exact absurd (h.same rfl hmust).2 (by decide)

end refused

end Wwdedup
