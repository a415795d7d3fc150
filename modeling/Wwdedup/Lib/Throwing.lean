import Mathlib.Tactic.Common

/-!
# Rules for programs that throw

A program is a value of `ExceptT ε (StateM σ) α`: it changes a state of type `σ` and returns
or throws, and what it changed before a throw stays changed.  `Triple P m Q E` says that from
a state with `P` the program either returns in a state with `Q` or throws in a state with
`E`.  There is one rule for each way to put programs together.

Where the state after every throw has to be known, `exec` is computed instead: `point` is a
place where an environment may let the program throw, `zoom` runs a program on a part of the
state, and each has an equation for `exec`, alone and in front of a continuation.
-/

namespace Throwing

variable {σ ε α β : Type}

/-- The result of the program and the state it leaves. -/
def exec (m : ExceptT ε (StateM σ) α) (s : σ) : Except ε α × σ := m.run.run s

theorem exec_bind (m : ExceptT ε (StateM σ) α) (f : α → ExceptT ε (StateM σ) β) (s : σ) :
    exec (m >>= f) s = match exec m s with
      | (.ok a, s') => exec (f a) s'
      | (.error e, s') => (.error e, s') := by
  show StateT.run (m.run >>= ExceptT.bindCont f) s = _
  rw [StateT.run_bind, exec]
  rcases StateT.run m.run s with ⟨_ | _, s'⟩ <;> rfl

theorem exec_bind_ok {m : ExceptT ε (StateM σ) α} {a : α} {s s' : σ} (h : exec m s = (.ok a, s'))
    (f : α → ExceptT ε (StateM σ) β) : exec (m >>= f) s = exec (f a) s' := by
  rw [exec_bind, h]

theorem exec_bind_error {m : ExceptT ε (StateM σ) α} {e : ε} {s : σ}
    (h : (exec m s).1 = .error e) (f : α → ExceptT ε (StateM σ) β) :
    exec (m >>= f) s = (.error e, (exec m s).2) := by
  rw [exec_bind]
  rcases hr : exec m s with ⟨e' | a, s'⟩
  · rw [hr] at h
    rw [Except.error.inj h]
  · rw [hr] at h
    cases h

theorem exec_tryCatch (m : ExceptT ε (StateM σ) α) (f : ε → ExceptT ε (StateM σ) α) (s : σ) :
    exec (tryCatch m f) s = match exec m s with
      | (.ok a, s') => (.ok a, s')
      | (.error e, s') => exec (f e) s' := by
  show StateT.run (m.run >>= fun
    | .ok a => pure (Except.ok a)
    | .error e => (f e).run) s = _
  rw [StateT.run_bind, exec]
  rcases StateT.run m.run s with ⟨_ | _, s'⟩ <;> rfl

/-- A place where the program throws when the environment says so. -/
def point {ι : Type} (fails : ι → Bool) (raise : ι → ε) (i : ι) : ExceptT ε (StateM σ) PUnit :=
  if fails i then throw (raise i) else pure ⟨⟩

/-- A program on a part of the state. -/
def zoom {τ : Type} (part : σ → τ) (put : τ → σ → σ) (m : ExceptT ε (StateM τ) α) :
    ExceptT ε (StateM σ) α :=
  ExceptT.mk fun s => ((exec m (part s)).1, put (exec m (part s)).2 s)

section equations

theorem exec_throw (e : ε) (s : σ) :
    exec (throw e : ExceptT ε (StateM σ) α) s = (.error e, s) := rfl

theorem exec_modify_bind (f : σ → σ) (k : PUnit → ExceptT ε (StateM σ) α) (s : σ) :
    exec (modify f >>= k) s = exec (k ⟨⟩) (f s) := by
  rw [exec_bind]
  rfl

theorem exec_get_bind (k : σ → ExceptT ε (StateM σ) α) (s : σ) :
    exec (get >>= k) s = exec (k s) s := by
  rw [exec_bind]
  rfl

theorem exec_point_bind {ι : Type} (fails : ι → Bool) (raise : ι → ε) (i : ι)
    (k : PUnit → ExceptT ε (StateM σ) α) (s : σ) :
    exec (point fails raise i >>= k) s =
      if fails i then (.error (raise i), s) else exec (k ⟨⟩) s := by
  rw [exec_bind, point]
  by_cases h : fails i = true
  · rw [if_pos h, if_pos h]
    rfl
  · rw [if_neg h, if_neg h]
    rfl

theorem exec_zoom {τ : Type} (part : σ → τ) (put : τ → σ → σ) (m : ExceptT ε (StateM τ) α)
    (s : σ) : exec (zoom part put m) s = ((exec m (part s)).1, put (exec m (part s)).2 s) := rfl

end equations

/-- From a state with `P`, `m` returns in a state with `Q` or throws in a state with `E`. -/
def Triple (P : σ → Prop) (m : ExceptT ε (StateM σ) α) (Q : α → σ → Prop) (E : ε → σ → Prop) :
    Prop :=
  ∀ s, P s → match exec m s with
    | (.ok a, s') => Q a s'
    | (.error e, s') => E e s'

section rules

variable {P P' : σ → Prop} {Q Q' : α → σ → Prop} {R : β → σ → Prop} {E E' : ε → σ → Prop}

theorem Triple.pure (a : α) (h : ∀ s, P s → Q a s) :
    Triple P (pure a : ExceptT ε (StateM σ) α) Q E := fun s hs => h s hs

theorem Triple.throw (e : ε) (h : ∀ s, P s → E e s) :
    Triple P (throw e : ExceptT ε (StateM σ) α) Q E := fun s hs => h s hs

theorem Triple.modify {Q : PUnit → σ → Prop} (f : σ → σ) (h : ∀ s, P s → Q ⟨⟩ (f s)) :
    Triple P (modify f : ExceptT ε (StateM σ) PUnit) Q E := fun s hs => h s hs

/-- The environment says whether the program goes on. -/
theorem Triple.point_cases {ι : Type} {Q : PUnit → σ → Prop} {fails : ι → Bool} {raise : ι → ε}
    {i : ι} (hok : fails i = false → ∀ s, P s → Q ⟨⟩ s)
    (hfail : fails i = true → ∀ s, P s → E (raise i) s) : Triple P (point fails raise i) Q E := by
  intro s hs
  rw [Throwing.point]
  by_cases h : fails i = true
  · rw [if_pos h]
    exact hfail h s hs
  · rw [if_neg h]
    exact hok (Bool.eq_false_iff.mpr h) s hs

theorem Triple.point {ι : Type} {Q : PUnit → σ → Prop} {fails : ι → Bool} {raise : ι → ε} {i : ι}
    (hok : ∀ s, P s → Q ⟨⟩ s) (hfail : ∀ s, P s → E (raise i) s) :
    Triple P (point fails raise i) Q E :=
  Triple.point_cases (fun _ => hok) fun _ => hfail

/-- What is read is the state. -/
theorem Triple.get_bind {k : σ → ExceptT ε (StateM σ) β}
    (h : ∀ s, P s → Triple (fun s' => s' = s) (k s) R E) : Triple P (get >>= k) R E := by
  intro s hs
  rw [exec_get_bind]
  exact h s hs s rfl

/-- Consequence. -/
theorem Triple.weaken {m : ExceptT ε (StateM σ) α} (hm : Triple P m Q E)
    (hP : ∀ s, P' s → P s) (hQ : ∀ a s, Q a s → Q' a s) (hE : ∀ e s, E e s → E' e s) :
    Triple P' m Q' E' := by
  intro s hs
  have h := hm s (hP s hs)
  rcases hr : exec m s with ⟨e | a, s'⟩
  · rw [hr] at h
    exact hE e s' h
  · rw [hr] at h
    exact hQ a s' h

/-- A part of the precondition that does not speak of the state. -/
theorem Triple.assume {c : Prop} {m : ExceptT ε (StateM σ) α} (h : c → Triple P m Q E) :
    Triple (fun s => c ∧ P s) m Q E := fun s hs => h hs.1 s hs.2

/-- The postcondition may speak of the state before. -/
theorem Triple.of_state {m : ExceptT ε (StateM σ) α}
    (h : ∀ s, P s → Triple (fun s' => s' = s) m Q E) : Triple P m Q E :=
  fun s hs => h s hs s rfl

/-- Sequence. -/
theorem Triple.bind {m : ExceptT ε (StateM σ) α} {f : α → ExceptT ε (StateM σ) β}
    (hm : Triple P m Q E) (hf : ∀ a, Triple (Q a) (f a) R E) : Triple P (m >>= f) R E := by
  intro s hs
  have h := hm s hs
  rw [exec_bind]
  rcases hr : exec m s with ⟨e | a, s'⟩
  · rw [hr] at h
    exact h
  · rw [hr] at h
    exact hf a s' h

/-- The handler starts where the body threw. -/
theorem Triple.tryCatch {m : ExceptT ε (StateM σ) α} {f : ε → ExceptT ε (StateM σ) α}
    (hm : Triple P m Q E) (hf : ∀ e, Triple (E e) (f e) Q E') :
    Triple P (tryCatch m f) Q E' := by
  intro s hs
  have h := hm s hs
  rw [exec_tryCatch]
  rcases hr : exec m s with ⟨e | a, s'⟩
  · rw [hr] at h
    exact hf e s' h
  · rw [hr] at h
    exact h

/-- A program on a part of the state. -/
theorem Triple.zoom {τ : Type} {Pt : τ → Prop} {Qt : α → τ → Prop} {Et : ε → τ → Prop}
    (part : σ → τ) (put : τ → σ → σ) {m : ExceptT ε (StateM τ) α} (hm : Triple Pt m Qt Et)
    (hP : ∀ s, P s → Pt (part s)) (hQ : ∀ a t s, P s → Qt a t → Q a (put t s))
    (hE : ∀ e t s, P s → Et e t → E e (put t s)) : Triple P (zoom part put m) Q E := by
  intro s hs
  have h := hm (part s) (hP s hs)
  rw [exec_zoom]
  rcases hr : exec m (part s) with ⟨e | a, t⟩
  · rw [hr] at h
    exact hE e t s hs h
  · rw [hr] at h
    exact hQ a t s hs h

theorem Triple.ite {c : Prop} [Decidable c] {m m' : ExceptT ε (StateM σ) α}
    (hm : c → Triple P m Q E) (hm' : ¬c → Triple P m' Q E) :
    Triple P (if c then m else m') Q E := by
  by_cases hc : c
  · rw [if_pos hc]
    exact hm hc
  · rw [if_neg hc]
    exact hm' hc

end rules

end Throwing
