import Mathlib.Data.List.ReduceOption
import Mathlib.Tactic.Common

/-!
# Runs of a failing step function, under a guard on every step

A system is a function `step : σ → ι → Except ε (σ × ο)`: from a state and an input it
either fails or gives the next state and an observation.  This file fixes what a whole run
is and proves the rules by which facts about one step become facts about runs:

* `run` executes a list of inputs and collects the observations;
* `Meets` says that every step of a run starts in a state that meets a guard;
* `run_invariant` carries an invariant through a guarded run;
* `run_history` does so for an invariant that also speaks of the observations so far;
* `run_refines` compares a guarded run with a deterministic specification;
* `run_simulates` does so for a specification whose steps are a relation;
* `run_lockstep` compares a run with one of a second system that takes the same inputs;
* `run_inserted` compares a run with the same run after silent steps were put in.

Interleavings are runs whose inputs name the party that moves.
-/

namespace GuardedRun

variable {σ ι κ ο ε α : Type*}

/-- Execute the inputs in order; the first failing step ends the run. -/
def run (step : σ → ι → Except ε (σ × ο)) : σ → List ι → Except ε (σ × List ο)
  | s, [] => .ok (s, [])
  | s, i :: is =>
    match step s i with
    | .error e => .error e
    | .ok (s', o) =>
      match run step s' is with
      | .error e => .error e
      | .ok (s'', os) => .ok (s'', o :: os)

/-- Every step that the run takes starts in a state that meets the guard. -/
def Meets (step : σ → ι → Except ε (σ × ο)) (G : σ → ι → Prop) : σ → List ι → Prop
  | _, [] => True
  | s, i :: is => G s i ∧ ∀ s' o, step s i = .ok (s', o) → Meets step G s' is

/-- The states that some run from `s₀` ends in. -/
def Reachable (step : σ → ι → Except ε (σ × ο)) (s₀ s : σ) : Prop :=
  ∃ is os, run step s₀ is = .ok (s, os)

section rules

variable {step : σ → ι → Except ε (σ × ο)} {G : σ → ι → Prop}

@[simp] theorem run_nil (s : σ) : run step s [] = .ok (s, []) := rfl

theorem run_cons_ok {s s'' : σ} {i : ι} {is : List ι} {os : List ο} :
    run step s (i :: is) = .ok (s'', os) ↔
      ∃ s' o os', step s i = .ok (s', o) ∧ run step s' is = .ok (s'', os') ∧ os = o :: os' := by
  constructor
  · intro h
    rw [run] at h
    split at h
    · cases h
    · rename_i s' o hstep
      split at h
      · cases h
      · rename_i t os' hrest
        cases h
        exact ⟨s', o, os', hstep, hrest, rfl⟩
  · rintro ⟨s', o, os', hstep, hrest, rfl⟩
    simp only [run, hstep, hrest]

theorem run_cons_error {s : σ} {i : ι} {is : List ι} {e : ε} (h : step s i = .error e) :
    run step s (i :: is) = .error e := by rw [run, h]

theorem run_cons_of_ok {s s' : σ} {i : ι} {is : List ι} {o : ο} (h : step s i = .ok (s', o)) :
    run step s (i :: is) = (run step s' is).map fun q => (q.1, o :: q.2) := by
  simp only [run, h]
  cases run step s' is <;> rfl

/-- What succeeds behind `map` has succeeded. -/
theorem ok_of_map {β : Type*} {x : Except ε α} {f : α → β} {b : β} (h : x.map f = .ok b) :
    ∃ a, x = .ok a ∧ f a = b := by
  cases x with
  | error e => cases h
  | ok a => exact ⟨a, rfl, Except.ok.inj h⟩

theorem error_of_map {β : Type*} {x : Except ε α} {f : α → β} {e : ε}
    (h : x.map f = .error e) : x = .error e := by
  cases x with
  | error e' => exact congrArg Except.error (Except.error.inj h)
  | ok a => cases h

theorem run_singleton (s : σ) (i : ι) :
    run step s [i] = (step s i).map fun q => (q.1, [q.2]) := by
  rw [run]
  cases step s i <;> rfl

/-- A run of two lists is a run of the first followed by a run of the second. -/
theorem run_append (s : σ) (is js : List ι) :
    run step s (is ++ js) =
      (run step s is).bind fun q => (run step q.1 js).map fun q' => (q'.1, q.2 ++ q'.2) := by
  induction is generalizing s with
  | nil =>
    rw [List.nil_append, run, Except.bind]
    cases run step s js <;> rfl
  | cons i is ih =>
    rw [List.cons_append, run, run]
    cases step s i with
    | error e => rfl
    | ok q =>
      simp only [ih]
      cases run step q.1 is with
      | error e => rfl
      | ok q' =>
        simp only [Except.bind]
        cases run step q'.1 js <;> rfl

theorem run_append_ok {s s'' : σ} {is js : List ι} {os : List ο} :
    run step s (is ++ js) = .ok (s'', os) ↔
      ∃ s' os₁ os₂, run step s is = .ok (s', os₁) ∧ run step s' js = .ok (s'', os₂) ∧
        os = os₁ ++ os₂ := by
  rw [run_append]
  constructor
  · intro h
    cases h₁ : run step s is with
    | error e => simp [h₁, Except.bind] at h
    | ok q =>
      cases h₂ : run step q.1 js with
      | error e => simp [h₁, h₂, Except.bind, Except.map] at h
      | ok q' =>
        simp only [h₁, h₂, Except.bind, Except.map, Except.ok.injEq, Prod.mk.injEq] at h
        obtain ⟨rfl, rfl⟩ := h
        exact ⟨q.1, q.2, q'.2, rfl, h₂, rfl⟩
  · rintro ⟨s', os₁, os₂, h₁, h₂, rfl⟩
    simp only [h₁, h₂, Except.bind, Except.map]

theorem Meets.append {s s' : σ} {is js : List ι} {os : List ο}
    (h : Meets step G s (is ++ js)) (hrun : run step s is = .ok (s', os)) :
    Meets step G s' js := by
  induction is generalizing s os with
  | nil =>
    cases hrun
    exact h
  | cons i is ih =>
    obtain ⟨s₁, o, os', hstep, hrest, rfl⟩ := run_cons_ok.mp hrun
    exact ih (h.2 s₁ o hstep) hrest

theorem Meets.left {s : σ} {is js : List ι} (h : Meets step G s (is ++ js)) :
    Meets step G s is := by
  induction is generalizing s with
  | nil => trivial
  | cons i is ih => exact ⟨h.1, fun s' o hstep => ih (h.2 s' o hstep)⟩

theorem Meets.mono {G' : σ → ι → Prop} {s : σ} {is : List ι} (h : Meets step G s is)
    (himp : ∀ s i, G s i → G' s i) : Meets step G' s is := by
  induction is generalizing s with
  | nil => trivial
  | cons i is ih => exact ⟨himp s i h.1, fun s' o hstep => ih (h.2 s' o hstep)⟩

/-- A run that meets two guards meets both at once. -/
theorem Meets.and {G' : σ → ι → Prop} {s : σ} {is : List ι} (h : Meets step G s is)
    (h' : Meets step G' s is) : Meets step (fun s i => G s i ∧ G' s i) s is := by
  induction is generalizing s with
  | nil => trivial
  | cons i is ih => exact ⟨⟨h.1, h'.1⟩, fun s' o hs => ih (h.2 s' o hs) (h'.2 s' o hs)⟩

/-- A run meets its guard when the first step does and the rest does from where it leads. -/
theorem Meets.cons {s s' : σ} {i : ι} {is : List ι} {o : ο} (hi : G s i)
    (hstep : step s i = .ok (s', o)) (h : Meets step G s' is) : Meets step G s (i :: is) := by
  refine ⟨hi, fun s'' o' hstep' => ?_⟩
  rw [hstep] at hstep'
  cases hstep'
  exact h

/-- A fact about each input joins the guard. -/
theorem Meets.and_mem {P : ι → Prop} {s : σ} {is : List ι} (h : Meets step G s is)
    (hall : ∀ i ∈ is, P i) : Meets step (fun s i => P i ∧ G s i) s is := by
  induction is generalizing s with
  | nil => trivial
  | cons i is ih =>
    refine ⟨⟨hall i (List.mem_cons_self ..), h.1⟩, fun s' o hstep => ?_⟩
    exact ih (h.2 s' o hstep) fun j hj => hall j (List.mem_cons_of_mem _ hj)

/-- A guard that holds everywhere is met by every run. -/
theorem meets_of_forall (hall : ∀ s i, G s i) (s : σ) (is : List ι) : Meets step G s is := by
  induction is generalizing s with
  | nil => trivial
  | cons i is ih => exact ⟨hall s i, fun s' _ _ => ih s'⟩

/-- **Invariant rule.**  What one guarded step preserves, a guarded run preserves. -/
theorem run_invariant {I : σ → Prop}
    (hstep : ∀ s i s' o, I s → G s i → step s i = .ok (s', o) → I s')
    {s s' : σ} {is : List ι} {os : List ο} (hinv : I s) (hok : Meets step G s is)
    (hrun : run step s is = .ok (s', os)) : I s' := by
  induction is generalizing s os with
  | nil =>
    cases hrun
    exact hinv
  | cons i is ih =>
    obtain ⟨s₁, o, os', h₁, hrest, rfl⟩ := run_cons_ok.mp hrun
    exact ih (hstep s i s₁ o hinv hok.1 h₁) (hok.2 s₁ o h₁) hrest

/-- **History rule.**  The invariant may speak of what the run has shown so far. -/
theorem run_history {I : List ο → σ → Prop}
    (hstep : ∀ os s i s' o, I os s → G s i → step s i = .ok (s', o) → I (os ++ [o]) s')
    {s s' : σ} {is : List ι} {os : List ο} (before : List ο) (hinv : I before s)
    (hok : Meets step G s is) (hrun : run step s is = .ok (s', os)) : I (before ++ os) s' := by
  induction is generalizing s before os with
  | nil =>
    cases hrun
    rwa [List.append_nil]
  | cons i is ih =>
    obtain ⟨s₁, o, os', h₁, hrest, rfl⟩ := run_cons_ok.mp hrun
    have hnext := ih (before ++ [o]) (hstep before s i s₁ o hinv hok.1 h₁) (hok.2 s₁ o h₁) hrest
    rwa [List.append_assoc] at hnext

/-- A run fails in a step that starts in a state with the invariant. -/
theorem run_error {I : σ → Prop}
    (hstep : ∀ s i s' o, I s → G s i → step s i = .ok (s', o) → I s')
    {s : σ} {is : List ι} {e : ε} (hinv : I s) (hok : Meets step G s is)
    (hrun : run step s is = .error e) : ∃ s' i, I s' ∧ G s' i ∧ step s' i = .error e := by
  induction is generalizing s with
  | nil => cases hrun
  | cons i is ih =>
    rw [run] at hrun
    cases h₁ : step s i with
    | error e' =>
      rw [h₁] at hrun
      cases hrun
      exact ⟨s, i, hinv, hok.1, h₁⟩
    | ok q =>
      obtain ⟨s₁, o⟩ := q
      rw [h₁] at hrun
      dsimp only at hrun
      cases h₂ : run step s₁ is with
      | error e' =>
        rw [h₂] at hrun
        cases hrun
        exact ih (hstep s i s₁ o hinv hok.1 h₁) (hok.2 s₁ o h₁) h₂
      | ok q' => simp [h₂] at hrun

/-- Where the invariant turns one guard into another, a run that meets the first meets the
second. -/
theorem Meets.of_invariant {I : σ → Prop} {G' : σ → ι → Prop}
    (hstep : ∀ s i s' o, I s → G s i → step s i = .ok (s', o) → I s')
    (himp : ∀ s i, I s → G s i → G' s i) {s : σ} {is : List ι} (hinv : I s)
    (hok : Meets step G s is) : Meets step G' s is := by
  induction is generalizing s with
  | nil => trivial
  | cons i is ih =>
    exact ⟨himp s i hinv hok.1, fun s' o h => ih (hstep s i s' o hinv hok.1 h) (hok.2 s' o h)⟩

/-- The invariant rule for a step that needs no guard. -/
theorem reachable_invariant {I : σ → Prop}
    (hstep : ∀ s i s' o, I s → step s i = .ok (s', o) → I s')
    {s₀ s : σ} (hinv : I s₀) (hreach : Reachable step s₀ s) : I s := by
  obtain ⟨is, os, hrun⟩ := hreach
  exact run_invariant (G := fun _ _ => True) (fun s i s' o h _ => hstep s i s' o h) hinv
    (meets_of_forall (fun _ _ => trivial) _ _) hrun

theorem Reachable.next {s₀ s s' : σ} {i : ι} {o : ο} (h : Reachable step s₀ s)
    (hs : step s i = .ok (s', o)) : Reachable step s₀ s' := by
  obtain ⟨is, os, hrun⟩ := h
  have hlast : run step s [i] = .ok (s', [o]) := run_cons_ok.mpr ⟨s', o, [], hs, rfl, rfl⟩
  exact ⟨is ++ [i], os ++ [o], run_append_ok.mpr ⟨s, os, [o], hrun, hlast, rfl⟩⟩

theorem Reachable.refl (s₀ : σ) : Reachable step s₀ s₀ := ⟨[], [], rfl⟩

end rules

section refinement

variable {step : σ → ι → Except ε (σ × ο)} {G : σ → ι → Prop}

/-- The observations of a deterministic specification that never fails. -/
def specRun (spec : α → ι → α × ο) : α → List ι → α × List ο
  | a, [] => (a, [])
  | a, i :: is =>
    let r := spec a i
    let rest := specRun spec r.1 is
    (rest.1, r.2 :: rest.2)

/-- **Refinement rule.**  When every guarded step succeeds, shows what the specification
shows and keeps the relation, a guarded run succeeds and shows what the specification's run
shows. -/
theorem run_refines {spec : α → ι → α × ο} {R : σ → α → Prop}
    (hstep : ∀ s a i, R s a → G s i →
      ∃ s', step s i = .ok (s', (spec a i).2) ∧ R s' (spec a i).1)
    {s : σ} {a : α} {is : List ι} (hR : R s a) (hok : Meets step G s is) :
    ∃ s', run step s is = .ok (s', (specRun spec a is).2) ∧ R s' (specRun spec a is).1 := by
  induction is generalizing s a with
  | nil => exact ⟨s, rfl, hR⟩
  | cons i is ih =>
    obtain ⟨s₁, h₁, hR₁⟩ := hstep s a i hR hok.1
    obtain ⟨s₂, h₂, hR₂⟩ := ih hR₁ (hok.2 s₁ _ h₁)
    exact ⟨s₂, run_cons_ok.mpr ⟨s₁, _, _, h₁, h₂, rfl⟩, hR₂⟩

end refinement

section simulation

/-- The runs of a specification whose steps are a relation. -/
inductive SpecRuns (spec : α → ι → α → ο → Prop) : α → List ι → List ο → α → Prop
  | nil (a : α) : SpecRuns spec a [] [] a
  | cons {a b c : α} {i : ι} {is : List ι} {o : ο} {os : List ο} (first : spec a i b o)
      (rest : SpecRuns spec b is os c) : SpecRuns spec a (i :: is) (o :: os) c

variable {step : σ → ι → Except ε (σ × ο)} {G : σ → ι → Prop}

/-- **Simulation rule.**  When every guarded step from a state with the invariant succeeds, keeps
the invariant and, seen through `view`, is a step of the specification, a guarded run succeeds
and is a run of the specification. -/
theorem run_simulates {I : σ → Prop} {view : σ → α} {spec : α → ι → α → ο → Prop}
    (hstep : ∀ s i, I s → G s i →
      ∃ s' o, step s i = .ok (s', o) ∧ I s' ∧ spec (view s) i (view s') o)
    {s : σ} {is : List ι} (hinv : I s) (hok : Meets step G s is) :
    ∃ s' os, run step s is = .ok (s', os) ∧ I s' ∧ SpecRuns spec (view s) is os (view s') := by
  induction is generalizing s with
  | nil => exact ⟨s, [], rfl, hinv, .nil _⟩
  | cons i is ih =>
    obtain ⟨s₁, o, h₁, hinv₁, hspec⟩ := hstep s i hinv hok.1
    obtain ⟨s₂, os, h₂, hinv₂, hrest⟩ := ih hinv₁ (hok.2 s₁ o h₁)
    exact ⟨s₂, o :: os, run_cons_ok.mpr ⟨s₁, o, os, h₁, h₂, rfl⟩, hinv₂, .cons hspec hrest⟩

/-- **Lock step.**  When a second system fails at a step where the first one fails and otherwise
shows the same and keeps the relation, it does so in whole runs. -/
theorem run_lockstep {τ ε' : Type*} {step' : τ → ι → Except ε' (τ × ο)} {R : σ → τ → Prop}
    {f : ε → ε'}
    (hfails : ∀ s t i e, R s t → step s i = .error e → step' t i = .error (f e))
    (hstep : ∀ s t i s' o, R s t → step s i = .ok (s', o) →
      ∃ t', step' t i = .ok (t', o) ∧ R s' t')
    {s : σ} {t : τ} (hR : R s t) (is : List ι) :
    (∀ e, run step s is = .error e → run step' t is = .error (f e)) ∧
      ∀ s' os, run step s is = .ok (s', os) → ∃ t', run step' t is = .ok (t', os) ∧ R s' t' := by
  induction is generalizing s t with
  | nil =>
    refine ⟨fun e h => ?_, fun s' os h => ?_⟩
    · cases h
    · cases h
      exact ⟨t, rfl, hR⟩
  | cons i is ih =>
    rcases hi : step s i with e | ⟨s₁, o⟩
    · have hs : run step s (i :: is) = .error e := run_cons_error hi
      have ht : run step' t (i :: is) = .error (f e) := run_cons_error (hfails s t i e hR hi)
      rw [hs, ht]
      refine ⟨fun e' h => ?_, fun s' os h => ?_⟩
      · cases h
        rfl
      · cases h
    · obtain ⟨t₁, ht, hR₁⟩ := hstep s t i s₁ o hR hi
      obtain ⟨hfail, hok⟩ := ih hR₁
      rw [run_cons_of_ok hi, run_cons_of_ok ht]
      refine ⟨fun e h => ?_, fun s' os h => ?_⟩
      · cases hrest : run step s₁ is with
        | error e' =>
          rw [hrest] at h
          cases h
          rw [hfail _ hrest]
          rfl
        | ok r =>
          rw [hrest] at h
          cases h
      · obtain ⟨r, hrest, heq⟩ := ok_of_map h
        cases heq
        obtain ⟨t₂, ht₂, hR₂⟩ := hok _ _ hrest
        refine ⟨t₂, ?_, hR₂⟩
        rw [ht₂]
        rfl

end simulation

section inserted

/-- A system with extra silent inputs: an input of the system shows its observation, an
inserted one shows nothing. -/
def withInserted (step : σ → ι → Except ε (σ × ο)) (silent : σ → κ → Except ε σ) :
    σ → ι ⊕ κ → Except ε (σ × Option ο)
  | s, .inl i => (step s i).map fun r => (r.1, some r.2)
  | s, .inr k => (silent s k).map fun s' => (s', none)

/-- The inputs of the system alone. -/
def erased (is : List (ι ⊕ κ)) : List ι := is.filterMap Sum.getLeft?

variable {step : σ → ι → Except ε (σ × ο)} {silent : σ → κ → Except ε σ}
variable {G₀ : σ → ι → Prop} {G : σ → ι ⊕ κ → Prop}

/-- **Insertion rule.**  `R` relates a state of the plain run to a state of the run with silent
steps.  When an input of the system fails on both sides alike, or shows the same and keeps `R`,
and silent steps on the right keep `R`, the two runs fail alike or show the same. -/
theorem run_inserted {R : σ → σ → Prop}
    (hinput : ∀ s t i, R s t → G₀ s i → G t (.inl i) →
      (∃ e, step s i = .error e ∧ step t i = .error e) ∨
        ∃ s' t' o, step s i = .ok (s', o) ∧ step t i = .ok (t', o) ∧ R s' t')
    (hsilent : ∀ s t k, R s t → G t (.inr k) → ∃ t', silent t k = .ok t' ∧ R s t')
    {s t : σ} {is : List (ι ⊕ κ)} (hR : R s t) (hplain : Meets step G₀ s (erased is))
    (hok : Meets (withInserted step silent) G t is) :
    (∃ e, run step s (erased is) = .error e ∧ run (withInserted step silent) t is = .error e) ∨
      ∃ s' t' os, run step s (erased is) = .ok (s', os.reduceOption) ∧
        run (withInserted step silent) t is = .ok (t', os) ∧ R s' t' := by
  induction is generalizing s t with
  | nil => exact .inr ⟨s, t, [], rfl, rfl, hR⟩
  | cons i is ih =>
    cases i with
    | inl i =>
      have herased : erased (.inl i :: is : List (ι ⊕ κ)) = i :: erased is := rfl
      rw [herased] at hplain ⊢
      rcases hinput s t i hR hplain.1 hok.1 with ⟨e, hs, ht⟩ | ⟨s₁, t₁, o, hs, ht, hR₁⟩
      · have ht' : withInserted step silent t (.inl i) = .error e := by
          simp only [withInserted, ht, Except.map]
        exact .inl ⟨e, run_cons_error hs, run_cons_error ht'⟩
      · have ht' : withInserted step silent t (.inl i) = .ok (t₁, some o) := by
          simp only [withInserted, ht, Except.map]
        rw [run_cons_of_ok hs, run_cons_of_ok ht']
        rcases ih hR₁ (hplain.2 s₁ o hs) (hok.2 t₁ _ ht') with
          ⟨e, hs', ht'⟩ | ⟨s', t', os, hs', ht', hR'⟩
        · exact .inl ⟨e, by rw [hs']; rfl, by rw [ht']; rfl⟩
        · refine .inr ⟨s', t', some o :: os, ?_, by rw [ht']; rfl, hR'⟩
          rw [hs', List.reduceOption_cons_of_some]
          rfl
    | inr k =>
      have herased : erased (.inr k :: is : List (ι ⊕ κ)) = erased is := rfl
      rw [herased] at hplain ⊢
      obtain ⟨t₁, ht, hR₁⟩ := hsilent s t k hR hok.1
      have ht' : withInserted step silent t (.inr k) = .ok (t₁, none) := by
        simp only [withInserted, ht, Except.map]
      rw [run_cons_of_ok ht']
      rcases ih hR₁ hplain (hok.2 t₁ _ ht') with ⟨e, hs', ht'⟩ | ⟨s', t', os, hs', ht', hR'⟩
      · exact .inl ⟨e, hs', by rw [ht']; rfl⟩
      · refine .inr ⟨s', t', none :: os, ?_, by rw [ht']; rfl, hR'⟩
        rw [hs', List.reduceOption_cons_of_none]

end inserted

end GuardedRun
