import Wwdedup.FilesTable

/-!
# The tree of names

The rows of `files` form a tree: each but that of "/" has the row of a directory for its parent
path, and `depth` counts the components of the path.  `create` looks the parent up; what has to
be shown is that `Rmdir` never takes the parent of a row away.  `dirEmpty` decides that by a
LIKE pattern that it makes of the name as it is.  A name with `%`, `_` or letters in it matches
more than itself, but it matches itself (`like_append`), so that the entries of the directory
are always found.
-/

namespace Wwdedup

open GuardedRun

variable {bits : ℕ} {H : Type} [DecidableEq H]

/-! ### Normalised paths -/

/-- The path of the names, from the root. -/
def pathOf : List Path → Path
  | [] => ['/']
  | names => names.flatMap fun n => '/' :: n

/-- A normalised absolute path. -/
def NormalPath (p : Path) : Prop :=
  ∃ names : List Path, (∀ n ∈ names, n ≠ [] ∧ '/' ∉ n) ∧ p = pathOf names

/-- The number of components of a path. -/
def components (p : Path) : ℕ := if p = ['/'] then 0 else p.count '/'

theorem pathOf_of_ne_nil {names : List Path} (h : names ≠ []) :
    pathOf names = names.flatMap fun n => '/' :: n := by
  cases names with
  | nil => exact absurd rfl h
  | cons n names => rfl

theorem pathOf_concat (names : List Path) (n : Path) :
    pathOf (names ++ [n]) = (names.flatMap fun n => '/' :: n) ++ '/' :: n := by
  rw [pathOf_of_ne_nil (by simp), List.flatMap_append, List.flatMap_singleton]

theorem pathOf_ne_root {names : List Path} (hnames : ∀ n ∈ names, n ≠ [] ∧ '/' ∉ n)
    (h : names ≠ []) : pathOf names ≠ ['/'] := by
  cases names with
  | nil => exact absurd rfl h
  | cons n names =>
    intro heq
    rw [pathOf_of_ne_nil h, List.flatMap_cons, List.cons_append, List.cons.injEq] at heq
    exact (hnames n (List.mem_cons_self ..)).1 (List.append_eq_nil_iff.mp heq.2).1

theorem components_pathOf {names : List Path} (hnames : ∀ n ∈ names, n ≠ [] ∧ '/' ∉ n) :
    components (pathOf names) = names.length := by
  unfold components
  by_cases h : names = []
  · rw [h]
    rfl
  · rw [if_neg (pathOf_ne_root hnames h), pathOf_of_ne_nil h]
    clear h
    induction names with
    | nil => rfl
    | cons n names ih =>
      have hcount : n.count '/' = 0 := List.count_eq_zero.mpr (hnames n (List.mem_cons_self ..)).2
      rw [List.flatMap_cons, List.count_append, List.count_cons_self, hcount,
        ih fun m hm => hnames m (List.mem_cons_of_mem _ hm), List.length_cons]
      omega

theorem dropWhile_ne_slash {n rest : Path} (h : '/' ∉ n) :
    (n ++ '/' :: rest).dropWhile (· ≠ '/') = '/' :: rest := by
  rw [List.dropWhile_append_of_pos]
  · exact List.dropWhile_cons_of_neg (by simp)
  · intro c hc
    have hne : c ≠ '/' := fun heq => h (heq ▸ hc)
    simpa using hne

/-- The parent of a path leaves the last name out. -/
theorem branchPath_pathOf {names : List Path} {n : Path} (hn : n ≠ [] ∧ '/' ∉ n) :
    branchPath (pathOf (names ++ [n])) = pathOf names := by
  have hdrop : (pathOf (names ++ [n])).reverse.dropWhile (· ≠ '/') =
      '/' :: (names.flatMap fun n => '/' :: n).reverse := by
    rw [pathOf_concat, List.reverse_append, List.reverse_cons, List.append_assoc,
      List.singleton_append]
    exact dropWhile_ne_slash (by simpa using hn.2)
  unfold branchPath
  rw [hdrop]
  by_cases hnames : names = []
  · rw [hnames]
    show (if pathOf ([] ++ [n]) = ['/'] then [] else ['/']) = pathOf []
    rw [if_neg]
    · rfl
    · intro heq
      rw [pathOf_concat, List.flatMap_nil, List.nil_append, List.cons.injEq] at heq
      exact hn.1 heq.2
  · rw [pathOf_of_ne_nil hnames]
    have hne : (names.flatMap fun n => '/' :: n).reverse ≠ [] := by
      obtain ⟨m, rest, rfl⟩ := List.exists_cons_of_ne_nil hnames
      simp
    generalize hdir : (names.flatMap fun n => '/' :: n).reverse = dir at hne ⊢
    cases dir with
    | nil => exact absurd rfl hne
    | cons c dir =>
      show (c :: dir).reverse = _
      rw [← hdir, List.reverse_reverse]

theorem normalPath_root : NormalPath ['/'] :=
  ⟨[], fun _ hn => absurd hn List.not_mem_nil, rfl⟩

/-- A path that is not the root is its parent and a name. -/
theorem NormalPath.cases {p : Path} (h : NormalPath p) (hroot : p ≠ ['/']) :
    ∃ names n, (∀ m ∈ names, m ≠ [] ∧ '/' ∉ m) ∧ (n ≠ [] ∧ '/' ∉ n) ∧
      p = pathOf (names ++ [n]) ∧ branchPath p = pathOf names := by
  obtain ⟨names, hnames, rfl⟩ := h
  have hne : names ≠ [] := by
    rintro rfl
    exact hroot rfl
  obtain ⟨init, n, rfl⟩ : ∃ init n, names = init ++ [n] :=
    ⟨names.dropLast, names.getLast hne, (List.dropLast_append_getLast hne).symm⟩
  have hn := hnames n (List.mem_append_right _ (List.mem_singleton_self n))
  exact ⟨init, n, fun m hm => hnames m (List.mem_append_left _ hm), hn, rfl, branchPath_pathOf hn⟩

theorem components_branchPath {p : Path} (h : NormalPath p) (hroot : p ≠ ['/']) :
    components p = components (branchPath p) + 1 := by
  obtain ⟨names, n, hnames, hn, rfl, hbranch⟩ := h.cases hroot
  rw [hbranch, components_pathOf hnames, components_pathOf, List.length_append]
  · rfl
  · intro m hm
    rcases List.mem_append.mp hm with hm | hm
    · exact hnames m hm
    · rw [List.mem_singleton.mp hm]
      exact hn

/-! ### The pattern of a directory -/

omit [DecidableEq H] in
/-- The path of a directory other than the root does not end in a slash. -/
theorem entriesPattern_of_ne_root {dir : FileInfo H} (h : NormalPath dir.name)
    (hroot : dir.name ≠ ['/']) : Db.entriesPattern dir = dir.name ++ ['/', '%'] := by
  obtain ⟨names, n, -, ⟨hn, hslash⟩, hname, -⟩ := h.cases hroot
  have hmem := List.getLast_mem hn
  unfold Db.entriesPattern
  rw [if_neg]
  rw [hname, pathOf_concat, List.getLast?_append_of_ne_nil _ (by simp), List.getLast?_cons,
    List.getLast?_eq_some_getLast hn, Option.getD_some, Option.some.injEq]
  intro heq
  rw [heq] at hmem
  exact hslash hmem

omit [DecidableEq H] in
/-- The pattern of a directory matches its entries. -/
theorem like_entriesPattern {dir : FileInfo H} {p : Path} (h : NormalPath p) (hroot : p ≠ ['/'])
    (hname : dir.name = branchPath p) : like (Db.entriesPattern dir) p = true := by
  obtain ⟨names, n, hnames, hn, rfl, hbranch⟩ := h.cases hroot
  rw [hbranch] at hname
  rw [pathOf_concat]
  by_cases hnil : names = []
  · unfold Db.entriesPattern
    rw [hname, hnil]
    exact like_append [] n
  · rw [entriesPattern_of_ne_root (hname ▸ ⟨names, hnames, rfl⟩)
      (hname ▸ pathOf_ne_root hnames hnil), hname, pathOf_of_ne_nil hnil]
    exact like_append _ _

/-! ### The tree -/

namespace Db

/-- The rows form a tree under normalised paths. -/
structure Tree (db : Db H) : Prop where
  files : db.FilesOk
  normal : ∀ r ∈ db.files.rows, NormalPath r.path
  depth : ∀ r ∈ db.files.rows, r.depth = components r.path
  parent : ∀ r ∈ db.files.rows, r.path ≠ ['/'] →
    ∃ d ∈ db.files.rows, d.path = branchPath r.path ∧ sIsdir d.mode = true

variable {db : Db H} {path : Path}

section

omit [DecidableEq H]

theorem empty_tree : (empty : Db H).Tree := ⟨empty_filesOk, nofun, nofun, nofun⟩

theorem Tree.congr {db' : Db H} (h : db.Tree) (heq : db'.files = db.files) : db'.Tree := by
  refine ⟨h.files.congr heq, ?_, ?_, ?_⟩ <;> rw [heq]
  · exact h.normal
  · exact h.depth
  · exact h.parent

/-- The parent of a row, with its depth. -/
theorem Tree.exists_parent (h : db.Tree) {r : FileRow} (hr : r ∈ db.files.rows)
    (hroot : r.path ≠ ['/']) : ∃ d ∈ db.files.rows, d.path = branchPath r.path ∧
      sIsdir d.mode = true ∧ r.depth = d.depth + 1 := by
  obtain ⟨d, hd, hpath, hdir⟩ := h.parent r hr hroot
  refine ⟨d, hd, hpath, hdir, ?_⟩
  rw [h.depth r hr, h.depth d hd, hpath, components_branchPath (h.normal r hr) hroot]
  rfl

/-- `create` puts a row under the row of a directory. -/
theorem Tree.create (h : db.Tree) (hp : NormalPath path) (mode : ℕ) :
    (db.create path mode).1.Tree := by
  unfold Db.create
  dsimp only
  split
  · exact h
  · rename_i hfound
    split
    · exact h
    · rename_i hisdir
      split
      · exact h
      · rename_i hfree
        have hnew := h.files.absent (not_not.mp hfree)
        -- the row of the parent, when there has to be one
        have hparent : path ≠ ['/'] → ∃ d ∈ db.files.rows, d.path = branchPath path ∧
            sIsdir d.mode = true ∧ db.getByPath (branchPath path) = d.info := by
          intro hroot
          have hino : (db.getByPath (branchPath path)).stIno ≠ 0 := fun hzero =>
            hfound ⟨hroot, hzero⟩
          obtain ⟨d, hd, hpath, hinfo⟩ := getByPath_of_ne_zero hino
          refine ⟨d, hd, hpath, ?_, hinfo⟩
          rw [hinfo] at hisdir
          change ¬(path ≠ ['/'] ∧ (!sIsdir d.mode) = true) at hisdir
          by_contra hdir
          exact hisdir ⟨hroot, by simpa using hdir⟩
        refine ⟨h.files.insert (fun _ => rfl) hnew, fun r hr => ?_, fun r hr => ?_,
          fun r hr hroot => ?_⟩
        · rcases List.mem_append.mp hr with hr | hr
          · exact h.normal r hr
          · rw [List.mem_singleton.mp hr]
            exact hp
        · rcases List.mem_append.mp hr with hr | hr
          · exact h.depth r hr
          · rw [List.mem_singleton.mp hr]
            show (if path = ['/'] then 0 else (db.getByPath (branchPath path)).depth + 1) =
              (components path : ℤ)
            split
            · rename_i hroot
              rw [hroot]
              rfl
            · rename_i hroot
              obtain ⟨d, hd, hpath, -, hinfo⟩ := hparent hroot
              rw [hinfo, components_branchPath hp hroot, ← hpath]
              show d.depth + 1 = _
              rw [h.depth d hd]
              rfl
        · rcases List.mem_append.mp hr with hr | hr
          · obtain ⟨d, hd, hpath, hdir⟩ := h.parent r hr hroot
            exact ⟨d, List.mem_append_left _ hd, hpath, hdir⟩
          · rw [List.mem_singleton.mp hr] at hroot ⊢
            obtain ⟨d, hd, hpath, hdir, -⟩ := hparent hroot
            exact ⟨d, List.mem_append_left _ hd, hpath, hdir⟩

/-- A row without entries may go. -/
theorem Tree.remove (h : db.Tree)
    (hleaf : ∀ r ∈ db.files.rows, r.path ≠ ['/'] → branchPath r.path ≠ path) :
    (db.remove path).1.Tree where
  files := h.files.remove path
  normal r hr := h.normal r (List.mem_filter.mp hr).1
  depth r hr := h.depth r (List.mem_filter.mp hr).1
  parent r hr hroot := by
    have hold := (List.mem_filter.mp hr).1
    obtain ⟨d, hd, hpath, hdir⟩ := h.parent r hold hroot
    refine ⟨d, List.mem_filter.mpr ⟨hd, ?_⟩, hpath, hdir⟩
    have hne := hleaf r hold hroot
    rw [← hpath] at hne
    simpa using hne

/-- A file has no entries. -/
theorem Tree.leaf_of_not_dir (h : db.Tree) (hdir : sIsdir (db.getByPath path).stMode = false) :
    ∀ r ∈ db.files.rows, r.path ≠ ['/'] → branchPath r.path ≠ path := by
  intro r hr hroot hbranch
  obtain ⟨d, hd, hpath, hmode⟩ := h.parent r hr hroot
  rw [← hbranch, ← hpath, h.files.getByPath_of_mem hd] at hdir
  change sIsdir d.mode = false at hdir
  rw [hmode] at hdir
  cases hdir

/-- **A directory that `dirEmpty` calls empty has no entries.** -/
theorem Tree.leaf_of_dirEmpty (h : db.Tree)
    (hempty : db.dirEmpty (db.getByPath path) = true) :
    ∀ r ∈ db.files.rows, r.path ≠ ['/'] → branchPath r.path ≠ path := by
  intro r hr hroot hbranch
  obtain ⟨d, hd, hpath, -, hdepth⟩ := h.exists_parent hr hroot
  rw [← hbranch, ← hpath, h.files.getByPath_of_mem hd] at hempty
  unfold dirEmpty at hempty
  rw [decide_eq_true_eq] at hempty
  have hpos := KeyedTable.count_pos (p := fun r : FileRow =>
    like (entriesPattern (d.info : FileInfo H)) r.path && r.depth = d.depth + 1)
    (KeyedTable.find_of_mem hr) (by
      rw [like_entriesPattern (h.normal r hr) hroot hpath, hdepth]
      simp)
  change db.files.count _ = 0 at hempty
  exact absurd hempty (Nat.pos_iff_ne_zero.mp hpos)

/-- A change of a size leaves the tree. -/
theorem Tree.updateFileSize (h : db.Tree) (size id : ℕ) : (db.updateFileSize size id).Tree := by
  have hrows : ∀ r ∈ (db.updateFileSize size id).files.rows, ∃ q ∈ db.files.rows,
      r.path = q.path ∧ r.depth = q.depth ∧ r.mode = q.mode := by
    intro r hr
    obtain ⟨q, hq, rfl⟩ := List.mem_map.mp hr
    refine ⟨q, hq, ?_⟩
    split <;> exact ⟨rfl, rfl, rfl⟩
  have hback : ∀ q ∈ db.files.rows, ∃ r ∈ (db.updateFileSize size id).files.rows,
      r.path = q.path ∧ r.mode = q.mode := by
    intro q hq
    refine ⟨_, List.mem_map_of_mem hq, ?_⟩
    split <;> exact ⟨rfl, rfl⟩
  refine ⟨h.files.updateFileSize size id, fun r hr => ?_, fun r hr => ?_, fun r hr hroot => ?_⟩
  · obtain ⟨q, hq, hpath, -⟩ := hrows r hr
    rw [hpath]
    exact h.normal q hq
  · obtain ⟨q, hq, hpath, hdepth, -⟩ := hrows r hr
    rw [hpath, hdepth]
    exact h.depth q hq
  · obtain ⟨q, hq, hpath, -⟩ := hrows r hr
    rw [hpath] at hroot ⊢
    obtain ⟨d, hd, hdpath, hdir⟩ := h.parent q hq hroot
    obtain ⟨d', hd', hdpath', hmode⟩ := hback d hd
    exact ⟨d', hd', hdpath'.trans hdpath, by rw [hmode]; exact hdir⟩

end

end Db

/-! ### Steps -/

section steps

variable {cfg : Config bits H} {s s' : Store bits H} {fi fi' : FileInfo H}

theorem run_tree {rs : List Round} {os : List (List UInt8)} (h : s.db.Tree)
    (hrun : run (roundStep cfg) (s, fi) rs = .ok ((s', fi'), os)) : s'.db.Tree := by
  refine run_invariant (G := fun _ _ => True) (I := fun p => p.1.db.Tree) ?_ h
    (meets_of_forall (fun _ _ => trivial) _ _) hrun
  rintro ⟨s, fi⟩ r ⟨s', fi'⟩ o hs - hr
  rcases roundStep_files hr with heq | ⟨size, heq⟩
  · exact hs.congr heq
  · exact (hs.updateFileSize size fi.stIno).congr heq

omit [DecidableEq H] in
theorem stMode_updateFileSize (db : Db H) (size id : ℕ) (path : Path) :
    ((db.updateFileSize size id).getByPath path).stMode = (db.getByPath path).stMode := by
  have hpath : ((fun r : FileRow => decide (r.path = path)) ∘
      fun r => if decide (r.id = id) = true then { r with size := size } else r) =
      fun r => decide (r.path = path) := by
    funext r
    show decide ((if decide (r.id = id) = true then { r with size := size } else r).path = path) = _
    split <;> rfl
  unfold Db.getByPath Db.getByPathIn Db.updateFileSize KeyedTable.modify
  dsimp only
  rw [List.find?_map, hpath]
  cases db.files.rows.find? fun r => decide (r.path = path) with
  | none => rfl
  | some r =>
    rw [Option.map_some]
    dsimp only
    split <;> rfl

/-- Rounds leave the modes of the rows. -/
theorem run_stMode {rs : List Round} {os : List (List UInt8)} {path : Path}
    (hrun : run (roundStep cfg) (s, fi) rs = .ok ((s', fi'), os)) :
    (s'.db.getByPath path).stMode = (s.db.getByPath path).stMode := by
  refine run_invariant (G := fun _ _ => True)
    (I := fun p => (p.1.db.getByPath path).stMode = (s.db.getByPath path).stMode) ?_ rfl
    (meets_of_forall (fun _ _ => trivial) _ _) hrun
  rintro ⟨s₁, fi₁⟩ r ⟨s₂, fi₂⟩ o h - hr
  refine Eq.trans ?_ h
  rcases roundStep_files hr with heq | ⟨size, heq⟩
  · unfold Db.getByPath Db.getByPathIn
    rw [heq]
  · rw [← stMode_updateFileSize s₁.db size fi₁.stIno]
    unfold Db.getByPath Db.getByPathIn
    rw [heq]

/-- The request adds normalised paths only, and renames nothing. -/
def Op.KeepsTree : Op → Prop
  | .create path _ => NormalPath path
  | .mkdir path _ => NormalPath path
  | .rename _ _ => False
  | _ => True

theorem Fs.step_tree {fs fs' : Fs bits H} {op : Op} {out : Out} (h : fs.store.db.Tree)
    (hop : op.KeepsTree) (hstep : fs.step cfg op = .ok (fs', out)) : fs'.store.db.Tree := by
  cases op with
  | create path mode =>
    have hcreated := h.create hop mode
    simp only [step, create, Except.ok.injEq] at hstep
    split at hstep
    · cases hstep
      exact hcreated
    · cases hstep
      exact hcreated
  | mkdir path mode =>
    cases hstep
    exact h.create hop _
  | openFile path =>
    simp only [step, openFile, Except.ok.injEq] at hstep
    split at hstep
    · cases hstep
      exact h
    · split at hstep <;> cases hstep <;> exact h
  | release fh =>
    cases hstep
    exact h
  | write fh buf offset =>
    obtain ⟨fi, fi', s', os, -, -, hrun, rfl, -⟩ := step_write_ok hstep
    exact run_tree h hrun
  | read fh size offset =>
    obtain ⟨fi, fi', s', os, -, -, -, hrun, rfl, -⟩ := step_read_ok hstep
    exact run_tree h hrun
  | truncate path newSize =>
    obtain ⟨rfl, -⟩ | ⟨n, fi', s', os, -, -, hrun, rfl⟩ := step_truncate_ok hstep
    · exact h
    · exact run_tree h hrun
  | ftruncate fh newSize =>
    obtain ⟨rfl, -⟩ | ⟨n, fi, fi', s', os, -, -, -, hrun, rfl⟩ := step_ftruncate_ok hstep
    · exact h
    · exact run_tree h hrun
  | unlink path =>
    obtain ⟨rfl, -⟩ | ⟨fi', s', os, hr, hrun, rfl⟩ := step_unlink_ok hstep
    · exact h
    · refine (run_tree h hrun).remove ((run_tree h hrun).leaf_of_not_dir ?_)
      rw [run_stMode hrun]
      simp only [rounds] at hr
      split at hr
      · cases hr
      · rename_i hcond
        simpa using fun hdir => hcond (.inr hdir)
  | rmdir path memory =>
    obtain rfl | ⟨-, hempty, rfl⟩ := step_rmdir_ok hstep
    · exact h
    · exact h.remove (h.leaf_of_dirEmpty hempty)
  | rename oldPath newPath => exact hop.elim
  | writerPass victims =>
    cases hstep
    exact h
  | remount =>
    obtain ⟨-, rfl, -⟩ := step_remount_ok hstep
    exact h.create normalPath_root _
  | clock now =>
    cases hstep
    exact h

theorem Fs.init_tree : (Fs.init bits H).store.db.Tree :=
  Db.empty_tree.create normalPath_root _

end steps

/-- **The tree of names**: after every run of requests on normalised paths other than renames,
each row of `files` but that of "/" has a row for its parent path, which is that of a directory,
and its depth is one more than the parent's and the number of its components; and `Rmdir` takes
no directory away that has an entry. -/
theorem run_parents (cfg : Config bits H) (ops : List Op) (fs : Fs bits H) (outs : List Out)
    (hops : ∀ op ∈ ops, op.KeepsTree)
    (hrun : run (Fs.step cfg) (Fs.init bits H) ops = .ok (fs, outs)) :
    (∀ r ∈ fs.store.db.files.rows, r.path ≠ ['/'] →
      ∃ d ∈ fs.store.db.files.rows, d.path = branchPath r.path ∧ sIsdir d.mode = true ∧
        r.depth = d.depth + 1 ∧ r.depth = components r.path) ∧
    ∀ path memory fs', fs.step cfg (.rmdir path memory) = .ok (fs', .ret 0) →
      ∀ r ∈ fs.store.db.files.rows, r.path ≠ ['/'] → branchPath r.path ≠ path := by
  have h := run_invariant (G := fun _ op => op.KeepsTree ∧ True)
    (I := fun fs : Fs bits H => fs.store.db.Tree)
    (fun fs op fs' out h hop hstep => Fs.step_tree h hop.1 hstep) Fs.init_tree
    ((meets_of_forall (fun _ _ => trivial) _ _).and_mem hops) hrun
  constructor
  · intro r hr hroot
    obtain ⟨d, hd, hpath, hdir, hdepth⟩ := h.exists_parent hr hroot
    exact ⟨d, hd, hpath, hdir, hdepth, h.depth r hr⟩
  · intro path memory fs' hstep
    have hcases := fs.rmdir_rmdirs path memory
    rw [Except.ok.inj hstep] at hcases
    cases hcases with
    | missing absent answer =>
      intro r hr hroot hbranch
      obtain ⟨d, hd, hpath, -, -⟩ := h.exists_parent hr hroot
      exact absent d hd (hpath.trans hbranch)
    | removed dir empty => exact h.leaf_of_dirEmpty empty

/-- A directory with a wildcard in its name and a file in it. -/
theorem run_parents_wildcard :
    (∀ r ∈ (Fs.after (plainConfig 0) [.mkdir ['/', 'a', '%'] 0o755,
        .create ['/', 'a', '%', '/', 'b'] sIfreg]).store.db.files.rows, r.path ≠ ['/'] →
      ∃ d ∈ (Fs.after (plainConfig 0) [.mkdir ['/', 'a', '%'] 0o755,
          .create ['/', 'a', '%', '/', 'b'] sIfreg]).store.db.files.rows,
        d.path = branchPath r.path ∧ sIsdir d.mode = true ∧
        r.depth = d.depth + 1 ∧ r.depth = components r.path) ∧
    ∀ path memory fs', (Fs.after (plainConfig 0) [.mkdir ['/', 'a', '%'] 0o755,
        .create ['/', 'a', '%', '/', 'b'] sIfreg]).step (plainConfig 0) (.rmdir path memory) =
          .ok (fs', .ret 0) →
      ∀ r ∈ (Fs.after (plainConfig 0) [.mkdir ['/', 'a', '%'] 0o755,
        .create ['/', 'a', '%', '/', 'b'] sIfreg]).store.db.files.rows,
        r.path ≠ ['/'] → branchPath r.path ≠ path := by
  refine run_parents (plainConfig 0) [.mkdir ['/', 'a', '%'] 0o755,
    .create ['/', 'a', '%', '/', 'b'] sIfreg] _ [.ret 0, .opened 0] ?_ rfl
  intro op hop
  rcases List.mem_cons.mp hop with rfl | hop
  · exact ⟨[['a', '%']], by simp, rfl⟩
  · rw [List.mem_singleton.mp hop]
    exact ⟨[['a', '%'], ['b']], by simp, rfl⟩

end Wwdedup
