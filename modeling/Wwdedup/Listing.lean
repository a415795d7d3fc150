import Wwdedup.Rename

/-!
# Listing a directory

`readdir` and `dirEmpty` select the rows below a directory by a LIKE pattern, made of its name
as it is, and by their depth.  Among the rows of the right depth the pattern of `d` matches a
path exactly if the name of `d`, read as a pattern, matches the parent of the path
(`Tree.like_entriesPattern_iff`): the entries of `d` are found, and with them the entries of
every other directory of the same depth whose path matches that of `d`.
-/

namespace Wwdedup

variable {bits : ℕ} {H : Type} [DecidableEq H]

/-! ### The pattern of a directory -/

theorem components_eq_zero {p : Path} (hp : NormalPath p) (h : components p = 0) : p = ['/'] := by
  by_contra hroot
  rw [components_branchPath hp hroot] at h
  cases h

/-- Of the paths that are one level deeper, the pattern of a directory matches those whose parent
matches the name of the directory. -/
theorem like_slash_percent {d p : Path} (hd : NormalPath d) (hdroot : d ≠ ['/'])
    (hp : NormalPath p) (hdepth : components p = components d + 1) :
    like (d ++ ['/', '%']) p = true ↔ like d (branchPath p) = true := by
  have hproot : p ≠ ['/'] := by
    intro heq
    rw [heq] at hdepth
    exact absurd hdepth (Nat.succ_ne_zero _).symm
  have hcount : d.count '/' + 1 = p.count '/' := by
    unfold components at hdepth
    rw [if_neg hproot, if_neg hdroot] at hdepth
    exact hdepth.symm
  obtain ⟨names, n, hnames, hn, rfl, hbranch⟩ := hp.cases hproot
  have hnil : names ≠ [] := by
    rintro rfl
    have hzero : components d = 0 := by
      rw [components_pathOf (by simpa using hn)] at hdepth
      exact (Nat.succ.inj hdepth).symm
    exact hdroot (components_eq_zero hd hzero)
  rw [pathOf_concat, List.count_append, List.count_cons_self,
    List.count_eq_zero.mpr hn.2] at hcount
  rw [hbranch, pathOf_concat, pathOf_of_ne_nil hnil]
  exact like_slash_iff hn.2 (by omega)

namespace Db

variable {db : Db H} {d r : FileRow}

omit [DecidableEq H] in
/-- **What the pattern of a directory matches** one level below it. -/
theorem Tree.like_entriesPattern_iff (h : db.Tree) (hd : d ∈ db.files.rows)
    (hr : r ∈ db.files.rows) (hdepth : r.depth = d.depth + 1) :
    like (entriesPattern (d.info : FileInfo H)) r.path = true ↔
      like d.path (branchPath r.path) = true := by
  have hcomp : components r.path = components d.path + 1 := by
    rw [h.depth r hr, h.depth d hd] at hdepth
    exact_mod_cast hdepth
  by_cases hroot : d.path = ['/']
  · -- everything one level below the root is an entry of the root
    have hproot : r.path ≠ ['/'] := by
      intro heq
      rw [heq, hroot] at hcomp
      cases hcomp
    have hbranch : branchPath r.path = ['/'] := by
      obtain ⟨e, he, hpath, -, hdep⟩ := h.exists_parent hr hproot
      rw [← hpath]
      apply components_eq_zero (h.normal e he)
      rw [components_branchPath (h.normal r hr) hproot, ← hpath, hroot] at hcomp
      exact Nat.succ.inj hcomp
    have hlike : like (entriesPattern (d.info : FileInfo H)) r.path = true :=
      like_entriesPattern (h.normal r hr) hproot (hroot.trans hbranch.symm)
    rw [hbranch, hroot]
    exact ⟨fun _ => by decide, fun _ => hlike⟩
  · rw [entriesPattern_of_ne_root (h.normal d hd) hroot]
    exact like_slash_percent (h.normal d hd) hroot (h.normal r hr) hcomp

end Db

/-! ### The listing -/

/-- The row is that of an entry of the directory. -/
def FileRow.IsEntry (dir : Path) (r : FileRow) : Prop := r.path ≠ ['/'] ∧ branchPath r.path = dir

section listing

variable {db : Db H} {d r : FileRow}

namespace Db

/-- The rows that `readdir` and `dirEmpty` select. -/
def listed (db : Db H) (dir : FileInfo H) : List FileRow :=
  db.files.rows.filter fun r => like (entriesPattern dir) r.path && r.depth = dir.depth + 1

section

omit [DecidableEq H]

theorem mem_listed {dir : FileInfo H} : r ∈ db.listed dir ↔
    r ∈ db.files.rows ∧ like (entriesPattern dir) r.path = true ∧ r.depth = dir.depth + 1 := by
  rw [listed, List.mem_filter, Bool.and_eq_true, decide_eq_true_eq]

theorem dirEmpty_iff {dir : FileInfo H} : db.dirEmpty dir = true ↔ db.listed dir = [] := by
  unfold dirEmpty listed KeyedTable.count
  rw [decide_eq_true_eq, List.countP_eq_length_filter, List.length_eq_zero_iff]

/-- What `readdir` returns for rows of the depth that it asks for. -/
theorem readdir_eq : db.readdir (d.info : FileInfo H) = (db.listed d.info).map FileRow.info := by
  unfold readdir listed
  apply List.map_congr_left
  intro r hr
  have hdepth : r.depth = d.depth + 1 := (mem_listed.mp hr).2.2
  unfold FileRow.info
  rw [hdepth]

theorem listed_nodup (dir : FileInfo H) : (db.listed dir).Nodup :=
  (db.files.nodup.of_map FileRow.id).filter _

theorem info_injective {r r' : FileRow} (h : (r.info : FileInfo H) = r'.info) : r = r' := by
  cases r
  cases r'
  unfold FileRow.info at h
  cases h
  rfl

end

/-- Another directory of the same depth that has an entry and whose path matches that of `d`, read
as a pattern. -/
def Mistaken (db : Db H) (d e : FileRow) : Prop :=
  e ∈ db.files.rows ∧ e ≠ d ∧ e.depth = d.depth ∧ like d.path e.path = true ∧ db.HasEntry e.path

omit [DecidableEq H] in
/-- **What is listed** are the entries of the directory and of those that are mistaken for it. -/
theorem Tree.mem_listed (h : db.Tree) (hd : d ∈ db.files.rows) :
    r ∈ db.listed d.info ↔ r ∈ db.files.rows ∧
      (r.IsEntry d.path ∨ ∃ e, db.Mistaken d e ∧ r.IsEntry e.path) := by
  rw [Db.mem_listed]
  constructor
  · rintro ⟨hr, hlike, hdepth⟩
    change r.depth = d.depth + 1 at hdepth
    rw [h.like_entriesPattern_iff hd hr hdepth] at hlike
    have hroot : r.path ≠ ['/'] := by
      intro heq
      have hzero := h.depth r hr
      have hcomp := h.depth d hd
      rw [heq] at hzero
      change r.depth = 0 at hzero
      omega
    obtain ⟨e, he, hpath, -, hdep⟩ := h.exists_parent hr hroot
    refine ⟨hr, ?_⟩
    by_cases hsame : e = d
    · left
      exact ⟨hroot, by rw [← hpath, hsame]⟩
    · right
      refine ⟨e, ⟨he, hsame, by omega, by rw [hpath]; exact hlike, r, hr, hroot, hpath.symm⟩, ?_⟩
      exact ⟨hroot, hpath.symm⟩
  · rintro ⟨hr, ⟨hroot, hbranch⟩ | ⟨e, ⟨he, -, hdep, hlike, -⟩, hroot, hbranch⟩⟩
    · obtain ⟨e, he, hpath, -, hdepth⟩ := h.exists_parent hr hroot
      have hsame : e = d := h.files.paths e he d hd (hpath.trans hbranch)
      rw [hsame] at hdepth
      exact ⟨hr, like_entriesPattern (h.normal r hr) hroot hbranch.symm, hdepth⟩
    · obtain ⟨e', he', hpath, -, hdepth⟩ := h.exists_parent hr hroot
      have hsame : e' = e := h.files.paths e' he' e he (hpath.trans hbranch)
      rw [hsame, hdep] at hdepth
      refine ⟨hr, (h.like_entriesPattern_iff hd hr hdepth).mpr ?_, hdepth⟩
      rw [hbranch]
      exact hlike

/-- The listing of the directory is exact: `readdir` returns the rows of its entries, each once,
and no other, `dirEmpty` says whether there are any, and `Rmdir` removes it when there are none. -/
structure Exact (fs : Fs bits H) (d : FileRow) : Prop where
  readdir : ∃ entries : List FileRow,
    fs.store.db.readdir d.info = entries.map FileRow.info ∧ entries.Nodup ∧
      ∀ r, r ∈ entries ↔ r ∈ fs.store.db.files.rows ∧ r.IsEntry d.path
  dirEmpty : fs.store.db.dirEmpty d.info = true ↔ ¬fs.store.db.HasEntry d.path
  rmdir : ¬fs.store.db.HasEntry d.path → ∀ memory,
    fs.rmdir d.path memory = (fs.setDb (fs.store.db.remove d.path).1, .ret 0)

end Db

end listing

omit [DecidableEq H] in
theorem not_isdir_info {d : FileRow} (hdir : sIsdir d.mode = true) :
    (!sIsdir (d.info : FileInfo H).stMode) = false := by
  show (!sIsdir d.mode) = false
  rw [hdir]
  rfl

omit [DecidableEq H] in
/-- **Directory listings**: in every tree the listing of a directory is exact if and only if no
other directory of the same depth that has an entry is matched by the path of the directory, read
as a pattern. -/
theorem readdir_exact_iff (fs : Fs bits H) (d : FileRow) (h : fs.store.db.Tree)
    (hd : d ∈ fs.store.db.files.rows) (hdir : sIsdir d.mode = true) :
    Db.Exact fs d ↔ ∀ e, ¬fs.store.db.Mistaken d e := by
  constructor
  · intro hexact e he
    obtain ⟨r, hr, hentry⟩ := he.2.2.2.2
    obtain ⟨entries, hlist, -, hmem⟩ := hexact.readdir
    rw [Db.readdir_eq] at hlist
    -- the entry of the other directory is listed
    have hin : (r.info : FileInfo H) ∈ entries.map FileRow.info := by
      rw [← hlist]
      exact List.mem_map_of_mem ((h.mem_listed hd).mpr ⟨hr, .inr ⟨e, he, hentry⟩⟩)
    obtain ⟨r', hr', hinfo⟩ := List.mem_map.mp hin
    rw [Db.info_injective hinfo, hmem] at hr'
    exact he.2.1 (h.files.paths e he.1 d hd (hentry.2.symm.trans hr'.2.2))
  · intro hnone
    have hmem : ∀ r, r ∈ fs.store.db.listed d.info ↔
        r ∈ fs.store.db.files.rows ∧ r.IsEntry d.path := by
      intro r
      rw [h.mem_listed hd]
      constructor
      · rintro ⟨hr, hentry | ⟨e, he, -⟩⟩
        · exact ⟨hr, hentry⟩
        · exact absurd he (hnone e)
      · rintro ⟨hr, hentry⟩
        exact ⟨hr, .inl hentry⟩
    have hempty : fs.store.db.dirEmpty (d.info : FileInfo H) = true ↔
        ¬fs.store.db.HasEntry d.path := by
      rw [Db.dirEmpty_iff, List.eq_nil_iff_forall_not_mem]
      constructor
      · rintro hnil ⟨r, hr, hentry⟩
        exact hnil r ((hmem r).mpr ⟨hr, hentry⟩)
      · intro hno r hr
        obtain ⟨hrow, hentry⟩ := (hmem r).mp hr
        exact hno ⟨r, hrow, hentry⟩
    refine ⟨⟨_, Db.readdir_eq, Db.listed_nodup _, hmem⟩, hempty, fun hno memory => ?_⟩
    unfold Fs.rmdir
    rw [(Db.getByPathIn_cases memory fs.store.db d.path).resolve_right fun hno => hno d hd rfl,
      h.files.getByPath_of_mem hd]
    dsimp only
    rw [not_isdir_info hdir, hempty.mpr hno]
    rfl

/-- `A` is mistaken for `a`, but `a` has no entry that would be listed for `A`. -/
theorem readdir_exact_iff_upper :
    Db.Exact ((Fs.init 0 (List UInt8)).setDb caseDirs) ⟨3, ['/', 'A'], 1, 0, sIfdir⟩ ↔
      ∀ e, ¬caseDirs.Mistaken ⟨3, ['/', 'A'], 1, 0, sIfdir⟩ e :=
  readdir_exact_iff ((Fs.init 0 (List UInt8)).setDb caseDirs) ⟨3, ['/', 'A'], 1, 0, sIfdir⟩
    caseDirs_tree (by decide) (by decide)

/-- **Other directories' files are listed.**  The pattern of `a` matches the file `x` of `A`: the
empty directory `a` shows a file, and it cannot be removed. -/
theorem readdir_lists_other_case :
    (¬∀ (fs : Fs 0 (List UInt8)) (d : FileRow), fs.store.db.Tree → d ∈ fs.store.db.files.rows →
      sIsdir d.mode = true → Db.Exact fs d) ∧
    caseDirs.files.rows.map (fun r => r.path) =
      [['/'], ['/', 'a'], ['/', 'A'], ['/', 'A', '/', 'x']] ∧
    (caseDirs.readdir (caseDirs.getByPath ['/', 'a'])).map (fun f => f.name) =
      [['/', 'A', '/', 'x']] ∧
    (((Fs.init 0 (List UInt8)).setDb caseDirs).rmdir ['/', 'a'] 0).2 = .ret (-enotempty) := by
  refine ⟨fun hall => ?_, by decide, by decide, by decide⟩
  have hexact := hall ((Fs.init 0 (List UInt8)).setDb caseDirs) ⟨2, ['/', 'a'], 1, 0, sIfdir⟩
    caseDirs_tree (by decide) (by decide)
  have hno : ¬caseDirs.HasEntry ['/', 'a'] := by
    unfold Db.HasEntry
    decide
  have hempty := hexact.dirEmpty.mpr hno
  revert hempty
  decide

/-! ### The request -/

/-- A buffer that takes every name. -/
def collect (names : List Path) (name : Path) (_ : FileInfo H) : List Path × Bool :=
  (names ++ [name], false)

omit [DecidableEq H] in
theorem fillEntries_collect (names : List Path) (files : List (FileInfo H)) :
    Fs.fillEntries collect names files = names ++ files.map fun f => leaf f.name := by
  induction files generalizing names with
  | nil => exact (List.append_nil names).symm
  | cons file files ih =>
    show Fs.fillEntries collect (names ++ [leaf file.name]) files = _
    rw [ih, List.append_assoc]
    rfl

omit [DecidableEq H] in
/-- `Readdir` on the handle that `Opendir` makes: "." and "..", and the last components of the rows
that are listed. -/
theorem opendir_readdir (fs : Fs bits H) (d : FileRow) (h : fs.store.db.Tree)
    (hd : d ∈ fs.store.db.files.rows) (hdir : sIsdir d.mode = true) :
    fs.opendir d.path = .ok d.info ∧
      (fs.readdir collect [] d.info).1 =
        ['.'] :: ['.', '.'] :: (fs.store.db.listed d.info).map fun r => leaf r.path := by
  constructor
  · have hino : (d.info : FileInfo H).stIno ≠ 0 := h.files.ids d hd
    unfold Fs.opendir
    rw [h.files.getByPath_of_mem hd]
    dsimp only
    rw [not_isdir_info hdir, if_pos hino]
    rfl
  · show Fs.fillEntries collect (([] ++ [['.']]) ++ [['.', '.']]) (fs.store.db.readdir d.info) = _
    rw [fillEntries_collect, Db.readdir_eq, List.map_map]
    rfl

end Wwdedup
