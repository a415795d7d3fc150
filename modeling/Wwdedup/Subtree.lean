import Wwdedup.Tree

/-!
# What is below a directory

A path is below a directory when it is the directory's path, a slash and more.  Of normalised
paths that says something about their names: those of the directory come first and others
follow (`below_pathOf`).  `movePath` puts another directory in the place of the first one, and
takes parents to parents.
-/

namespace Wwdedup

/-- Names of files and directories. -/
abbrev Names (names : List Path) : Prop := ∀ n ∈ names, n ≠ [] ∧ '/' ∉ n

/-- What the paths of the entries of a directory start with. -/
def entriesPrefix (dir : Path) : Path := if dir = ['/'] then dir else dir ++ ['/']

/-- The path is that of the directory, a slash and more. -/
def below (dir p : Path) : Bool := (entriesPrefix dir).isPrefixOf p && p ≠ entriesPrefix dir

/-- The path with the prefix `old` replaced by `new`. -/
def movePath (old new p : Path) : Path := new ++ p.drop old.length

variable {ds ps ns ms : List Path} {dir old new p : Path}

theorem Names.append (hds : Names ds) (hms : Names ms) : Names (ds ++ ms) := by
  intro n hn
  rcases List.mem_append.mp hn with hn | hn
  · exact hds n hn
  · exact hms n hn

theorem Names.right (h : Names (ds ++ ms)) : Names ms :=
  fun n hn => h n (List.mem_append_right _ hn)

theorem Names.normalPath (h : Names ds) : NormalPath (pathOf ds) := ⟨ds, h, rfl⟩

/-! ### Names and prefixes -/

/-- A name that a slash follows in two strings, one a prefix of the other, is the same in
both. -/
theorem name_of_prefix {d n x y : Path} (hd : '/' ∉ d) (hn : '/' ∉ n)
    (hy : y = [] ∨ ∃ z, y = '/' :: z) (h : d ++ '/' :: x <+: n ++ y) :
    d = n ∧ '/' :: x <+: y := by
  obtain ⟨t, ht⟩ := h
  have htake : ∀ m z : Path, '/' ∉ m → (m ++ '/' :: z).takeWhile (· ≠ '/') = m := by
    intro m z hm
    rw [List.takeWhile_append_of_pos]
    · simp
    · intro c hc
      have hne : c ≠ '/' := fun heq => hm (heq ▸ hc)
      simpa using hne
  rcases hy with rfl | ⟨z, rfl⟩
  · -- the second string has no slash
    rw [List.append_nil] at ht
    exact absurd (ht ▸ by simp) hn
  · have hdn := congrArg (fun s : Path => s.takeWhile (· ≠ '/')) ht
    rw [List.append_assoc, List.cons_append, htake d _ hd, htake n z hn] at hdn
    rw [hdn, List.append_assoc, List.append_cancel_left_eq] at ht
    exact ⟨hdn, t, ht⟩

theorem flatMap_slash (names : List Path) :
    (names.flatMap fun n => '/' :: n) = [] ∨
      ∃ z, (names.flatMap fun n => '/' :: n) = '/' :: z := by
  cases names with
  | nil => exact .inl rfl
  | cons n names => exact .inr ⟨_, rfl⟩

theorem prefix_flatMap (hds : Names ds) (hps : Names ps)
    (h : (ds.flatMap fun n => '/' :: n) ++ ['/'] <+: ps.flatMap fun n => '/' :: n) :
    ∃ ms, ms ≠ [] ∧ ps = ds ++ ms := by
  induction ds generalizing ps with
  | nil =>
    refine ⟨ps, ?_, rfl⟩
    rintro rfl
    exact absurd h.length_le (by simp)
  | cons d ds ih =>
    cases ps with
    | nil => exact absurd h.length_le (by simp)
    | cons n ps =>
      simp only [List.flatMap_cons, List.cons_append, List.append_assoc, List.cons_prefix_cons,
        true_and] at h
      obtain ⟨x, hx⟩ : ∃ x, (ds.flatMap fun n => '/' :: n) ++ ['/'] = '/' :: x := by
        rcases flatMap_slash ds with hnil | ⟨z, hz⟩
        · exact ⟨[], by rw [hnil]; rfl⟩
        · exact ⟨z ++ ['/'], by rw [hz]; rfl⟩
      rw [hx] at h
      obtain ⟨rfl, hrest⟩ := name_of_prefix (hds d (List.mem_cons_self ..)).2
        (hps n (List.mem_cons_self ..)).2 (flatMap_slash ps) h
      rw [← hx] at hrest
      obtain ⟨ms, hms, rfl⟩ := ih (fun m hm => hds m (List.mem_cons_of_mem _ hm))
        (fun m hm => hps m (List.mem_cons_of_mem _ hm)) hrest
      exact ⟨ms, hms, rfl⟩

theorem pathOf_append (h : ds ≠ []) :
    pathOf (ds ++ ms) = pathOf ds ++ ms.flatMap fun n => '/' :: n := by
  rw [pathOf_of_ne_nil h, pathOf_of_ne_nil (List.append_ne_nil_of_left_ne_nil h _),
    List.flatMap_append]

theorem entriesPrefix_pathOf (hds : Names ds) :
    entriesPrefix (pathOf ds) = (ds.flatMap fun n => '/' :: n) ++ ['/'] := by
  unfold entriesPrefix
  by_cases h : ds = []
  · rw [h]
    rfl
  · rw [if_neg (pathOf_ne_root hds h), pathOf_of_ne_nil h]

/-- **Below is below by names.** -/
theorem below_pathOf (hds : Names ds) (hps : Names ps) :
    below (pathOf ds) (pathOf ps) = true ↔ ∃ ms, ms ≠ [] ∧ ps = ds ++ ms := by
  simp only [below, Bool.and_eq_true, List.isPrefixOf_iff_prefix, decide_eq_true_eq,
    entriesPrefix_pathOf hds]
  constructor
  · rintro ⟨hpre, hne⟩
    by_cases hnil : ps = []
    · -- only the root itself could be a prefix of the root's path
      rw [hnil] at hpre hne
      have hroot := hpre.eq_of_length_le (by simp [pathOf])
      exact absurd hroot.symm hne
    · rw [pathOf_of_ne_nil hnil] at hpre
      exact prefix_flatMap hds hps hpre
  · rintro ⟨ms, hms, rfl⟩
    obtain ⟨m, rest, rfl⟩ := List.exists_cons_of_ne_nil hms
    have hm := hps m (List.mem_append_right _ (List.mem_cons_self ..))
    have hpath : pathOf (ds ++ m :: rest) = ((ds.flatMap fun n => '/' :: n) ++ ['/']) ++
        (m ++ rest.flatMap fun n => '/' :: n) := by
      rw [pathOf_of_ne_nil (by simp), List.flatMap_append, List.flatMap_cons, List.append_assoc]
      rfl
    rw [hpath]
    refine ⟨List.prefix_append .., fun heq => ?_⟩
    exact hm.1 (List.append_eq_nil_iff.mp (List.append_right_eq_self.mp heq)).1

theorem pathOf_injective (hds : Names ds) (hps : Names ps) (h : pathOf ds = pathOf ps) :
    ds = ps := by
  have key : ∀ {ds ps : List Path}, Names ds → Names ps → pathOf ds = pathOf ps →
      ∃ ms, ps = ds ++ ms := by
    intro ds ps hds hps h
    have hadd : Names (ps ++ [['a']]) := Names.append hps (by decide)
    have hbelow : below (pathOf ds) (pathOf (ps ++ [['a']])) = true := by
      rw [h, below_pathOf hps hadd]
      exact ⟨[['a']], by simp, rfl⟩
    obtain ⟨ms, hms, heq⟩ := (below_pathOf hds hadd).mp hbelow
    obtain ⟨init, m, rfl⟩ : ∃ init m, ms = init ++ [m] :=
      ⟨ms.dropLast, ms.getLast hms, (List.dropLast_append_getLast hms).symm⟩
    rw [← List.append_assoc] at heq
    exact ⟨init, List.append_inj_left' heq rfl⟩
  obtain ⟨ms, rfl⟩ := key hds hps h
  obtain ⟨ms', heq⟩ := key hps hds h.symm
  rw [List.append_assoc] at heq
  have hnil := List.append_right_eq_self.mp heq.symm
  rw [(List.append_eq_nil_iff.mp hnil).1, List.append_nil]

/-! ### Parents -/

/-- What is below a directory is an entry of it or below one of what is below it. -/
theorem below_iff_branchPath (hdir : NormalPath dir) (hp : NormalPath p) (hroot : p ≠ ['/']) :
    below dir p = true ↔ branchPath p = dir ∨ below dir (branchPath p) = true := by
  obtain ⟨ds, hds, rfl⟩ := hdir
  obtain ⟨ps, n, hps, hn, rfl, hbranch⟩ := hp.cases hroot
  have hall : Names (ps ++ [n]) :=
    Names.append hps fun m hm => by rw [List.mem_singleton.mp hm]; exact hn
  rw [hbranch, below_pathOf hds hall, below_pathOf hds hps]
  constructor
  · rintro ⟨ms, hms, heq⟩
    obtain ⟨init, m, rfl⟩ : ∃ init m, ms = init ++ [m] :=
      ⟨ms.dropLast, ms.getLast hms, (List.dropLast_append_getLast hms).symm⟩
    rw [← List.append_assoc] at heq
    have hps' := List.append_inj_left' heq rfl
    by_cases hinit : init = []
    · left
      rw [hps', hinit, List.append_nil]
    · exact .inr ⟨init, hinit, hps'⟩
  · rintro (heq | ⟨ms, hms, rfl⟩)
    · rw [pathOf_injective hps hds heq]
      exact ⟨[n], by simp, rfl⟩
    · exact ⟨ms ++ [n], by simp, List.append_assoc ..⟩

theorem ne_root_of_below (h : below dir p = true) (hp : NormalPath p) (hdir : NormalPath dir) :
    p ≠ ['/'] := by
  obtain ⟨ds, hds, rfl⟩ := hdir
  obtain ⟨ps, hps, rfl⟩ := hp
  obtain ⟨ms, hms, rfl⟩ := (below_pathOf hds hps).mp h
  exact pathOf_ne_root hps (List.append_ne_nil_of_right_ne_nil _ hms)

theorem not_below_self (dir : Path) : below dir dir = false := by
  rw [Bool.eq_false_iff, below]
  intro h
  rw [Bool.and_eq_true, List.isPrefixOf_iff_prefix, decide_eq_true_eq] at h
  unfold entriesPrefix at h
  split at h
  · exact h.2 rfl
  · exact absurd h.1.length_le (by simp)

/-- A path that is below a directory matches its pattern. -/
theorem like_of_below (hroot : old ≠ ['/']) (h : below old p = true) :
    like (old ++ ['/', '%']) p = true := by
  rw [below, Bool.and_eq_true, List.isPrefixOf_iff_prefix, entriesPrefix, if_neg hroot] at h
  obtain ⟨⟨rest, rfl⟩, -⟩ := h
  rw [List.append_assoc]
  exact like_append _ _

/-! ### Another directory in its place -/

theorem movePath_self (old new : Path) : movePath old new old = new := by
  rw [movePath, List.drop_length, List.append_nil]

theorem movePath_pathOf (hos : ds ≠ []) (hns : ns ≠ []) :
    movePath (pathOf ds) (pathOf ns) (pathOf (ds ++ ms)) = pathOf (ns ++ ms) := by
  rw [movePath, pathOf_append hos, pathOf_append hns, List.drop_left]

/-- What is moved from below one directory to another has the same names there. -/
theorem movePath_below (hold : NormalPath old) (holdroot : old ≠ ['/']) (hnew : NormalPath new)
    (hnewroot : new ≠ ['/']) (hp : NormalPath p) (h : below old p = true) :
    NormalPath (movePath old new p) ∧ movePath old new p ≠ ['/'] ∧
      (components (movePath old new p) : ℤ) =
        components p + (components new - components old : ℤ) ∧
      branchPath (movePath old new p) = movePath old new (branchPath p) := by
  obtain ⟨os, hos, rfl⟩ := hold
  obtain ⟨ns, hns, rfl⟩ := hnew
  obtain ⟨ps, hps, rfl⟩ := hp
  obtain ⟨ms, hms, rfl⟩ := (below_pathOf hos hps).mp h
  have hos' : os ≠ [] := fun heq => holdroot (by rw [heq]; rfl)
  have hns' : ns ≠ [] := fun heq => hnewroot (by rw [heq]; rfl)
  have hall : Names (ns ++ ms) := Names.append hns (Names.right hps)
  rw [movePath_pathOf hos' hns']
  refine ⟨hall.normalPath, pathOf_ne_root hall (List.append_ne_nil_of_left_ne_nil hns' _), ?_, ?_⟩
  · rw [components_pathOf hall, components_pathOf hps, components_pathOf hos,
      components_pathOf hns, List.length_append, List.length_append]
    omega
  · obtain ⟨init, m, rfl⟩ : ∃ init m, ms = init ++ [m] :=
      ⟨ms.dropLast, ms.getLast hms, (List.dropLast_append_getLast hms).symm⟩
    have hm : m ≠ [] ∧ '/' ∉ m := hall m (by simp)
    rw [← List.append_assoc, ← List.append_assoc, branchPath_pathOf hm, branchPath_pathOf hm,
      movePath_pathOf hos' hns']

end Wwdedup
