import Mathlib.Algebra.BigOperators.Group.Finset.Basic
import Mathlib.Algebra.Order.BigOperators.Group.Finset
import Mathlib.Data.Fintype.Basic
import Mathlib.Logic.Relation
import Mathlib.Tactic.Common

/-!
# Locks that are taken in order

Threads work through lists of actions: they take locks, give them back, and pass places where an
exception may end what they do.  An exception gives back the locks that have guards; a lock that
was taken by hand is abandoned by it, and nobody gives it back.

Locks have ranks.  `Disciplined` says that a thread takes locks in the order of their ranks only
and abandons none but those of the lowest rank (`leaky`).  `Sound` says so of all threads.

* `Sound.step`: a turn of a thread keeps this, and so does a thread that begins something new.
* `Sound.alive`: a thread that is not done can move, or waits behind one that can, or waits for an
  abandoned lock.  There are no cycles.
* `Turns.bounded`: threads that begin nothing new are done with moving after a number of turns that
  is known in advance.
* `Sound.settled`: what is left then are threads that wait for abandoned locks, and these are the
  only locks that are not free.
-/

namespace LockOrder

variable {τ ι : Type*} [DecidableEq τ] [DecidableEq ι]

/-- What a thread does with locks. -/
inductive Act (ι : Type*) where
  | acquire (l : ι)
  | release (l : ι)
  /-- an exception may leave here; these locks have guards -/
  | throws (guards : List ι)

/-- Who has a lock. -/
inductive Holder (τ : Type*) where
  | free
  | thread (t : τ)
  /-- an exception left it locked -/
  | abandoned

/-- What every thread still has to do, and who has the locks. -/
structure Threads (τ ι : Type*) where
  todo : τ → List (Act ι)
  owner : ι → Holder τ

/-- Nobody does anything. -/
def Threads.idle : Threads τ ι := ⟨fun _ => [], fun _ => .free⟩

variable {s s' : Threads τ ι} {t u : τ} {l l' : ι} {p : List (Act ι)}

/-- The locks of a thread after an exception. -/
def abandon (owner : ι → Holder τ) (t : τ) (guards : List ι) : ι → Holder τ := fun l =>
  match owner l with
  | .thread u => if u = t ∧ l ∉ guards then .abandoned else .thread u
  | h => h

theorem abandon_eq_thread {owner : ι → Holder τ} {gs : List ι} :
    abandon owner t gs l = .thread u ↔ owner l = .thread u ∧ (u = t → l ∈ gs) := by
  unfold abandon
  cases owner l with
  | free => simp
  | abandoned => simp
  | thread v =>
    show (if v = t ∧ l ∉ gs then Holder.abandoned else .thread v) = .thread u ↔ _
    by_cases hlost : v = t ∧ l ∉ gs
    · rw [if_pos hlost]
      constructor
      · intro hu
        cases hu
      · rintro ⟨hu, hin⟩
        cases hu
        exact absurd (hin hlost.1) hlost.2
    · rw [if_neg hlost]
      constructor
      · intro hu
        cases hu
        exact ⟨rfl, fun hu => not_not.mp fun hnot => hlost ⟨hu, hnot⟩⟩
      · exact fun h => h.1

theorem abandon_eq_abandoned {owner : ι → Holder τ} {gs : List ι} :
    abandon owner t gs l = .abandoned ↔ owner l = .abandoned ∨ owner l = .thread t ∧ l ∉ gs := by
  unfold abandon
  cases owner l with
  | free => simp
  | abandoned => simp
  | thread v =>
    show (if v = t ∧ l ∉ gs then Holder.abandoned else .thread v) = .abandoned ↔ _
    by_cases hlost : v = t ∧ l ∉ gs
    · rw [if_pos hlost]
      simp [hlost]
    · rw [if_neg hlost]
      constructor
      · intro hu
        cases hu
      · rintro (hu | ⟨hu, hnot⟩)
        · cases hu
        · cases hu
          exact absurd ⟨rfl, hnot⟩ hlost

/-- One action of one thread. -/
inductive Turn (s : Threads τ ι) (t : τ) : Threads τ ι → Prop
  | acquire (l : ι) (p : List (Act ι)) (next : s.todo t = .acquire l :: p)
      (free : s.owner l = .free) :
      Turn s t ⟨Function.update s.todo t p, Function.update s.owner l (.thread t)⟩
  | release (l : ι) (p : List (Act ι)) (next : s.todo t = .release l :: p) :
      Turn s t ⟨Function.update s.todo t p, Function.update s.owner l .free⟩
  | passes (gs : List ι) (p : List (Act ι)) (next : s.todo t = .throws gs :: p) :
      Turn s t ⟨Function.update s.todo t p, s.owner⟩
  | throws (gs : List ι) (p : List (Act ι)) (next : s.todo t = .throws gs :: p) :
      Turn s t ⟨Function.update s.todo t (gs.map .release), abandon s.owner t gs⟩

/-- A turn of a thread, or a thread that has nothing to do begins something. -/
inductive Step (calls : List (Act ι) → Prop) (s : Threads τ ι) : Threads τ ι → Prop
  | turn (t : τ) {s' : Threads τ ι} (turn : Turn s t s') : Step calls s s'
  | call (t : τ) (p : List (Act ι)) (done : s.todo t = []) (called : calls p) :
      Step calls s ⟨Function.update s.todo t p, s.owner⟩

/-- What a run from nothing comes to. -/
def Reachable (calls : List (Act ι) → Prop) (s : Threads τ ι) : Prop :=
  Relation.ReflTransGen (Step calls) .idle s

/-- The locks in `held` are given back, locks are taken in the order of their ranks, and an
exception leaves only leaky ones behind. -/
def Disciplined (rank : ι → ℕ) (leaky : ι → Prop) : (ι → Prop) → List (Act ι) → Prop
  | held, [] => ∀ l, ¬held l
  | held, .acquire l :: p =>
    (∀ h, held h → rank h < rank l) ∧ Disciplined rank leaky (fun h => h = l ∨ held h) p
  | held, .release l :: p => held l ∧ Disciplined rank leaky (fun h => h ≠ l ∧ held h) p
  | held, .throws gs :: p =>
    (gs.Nodup ∧ (∀ l ∈ gs, held l) ∧ ∀ l, held l → l ∉ gs → leaky l) ∧
      Disciplined rank leaky held p

variable {rank : ι → ℕ} {leaky : ι → Prop} {held held' : ι → Prop}

omit [DecidableEq ι] in
theorem Disciplined.congr (h : Disciplined rank leaky held p) (hheld : ∀ l, held' l ↔ held l) :
    Disciplined rank leaky held' p := by
  have heq : held' = held := funext fun l => propext (hheld l)
  exact heq ▸ h

omit [DecidableEq ι] in
/-- Guards give their locks back. -/
theorem disciplined_releases {gs : List ι} (h : gs.Nodup) :
    Disciplined rank leaky (· ∈ gs) (gs.map .release) := by
  induction gs with
  | nil => exact fun l => List.not_mem_nil
  | cons g gs ih =>
    obtain ⟨hg, hgs⟩ := List.nodup_cons.mp h
    refine ⟨List.mem_cons_self, (ih hgs).congr fun l => ?_⟩
    constructor
    · rintro ⟨hne, hl⟩
      exact (List.mem_cons.mp hl).resolve_left hne
    · intro hl
      exact ⟨fun heq => hg (heq ▸ hl), List.mem_cons_of_mem g hl⟩

/-! ### Pieces of lists -/

/-- The piece keeps the discipline and leaves the thread with the locks that it had. -/
def Balanced (rank : ι → ℕ) (leaky : ι → Prop) (held : ι → Prop) (p : List (Act ι)) : Prop :=
  ∀ q, Disciplined rank leaky held q → Disciplined rank leaky held (p ++ q)

section

omit [DecidableEq ι]

theorem Balanced.disciplined (h : Balanced rank leaky (fun _ => False) p) :
    Disciplined rank leaky (fun _ => False) p := by
  have hend := h [] fun _ => id
  rwa [List.append_nil] at hend

theorem Balanced.nil : Balanced rank leaky held [] := fun _ => id

theorem Balanced.append {q : List (Act ι)} (hp : Balanced rank leaky held p)
    (hq : Balanced rank leaky held q) : Balanced rank leaky held (p ++ q) := by
  intro r hr
  rw [List.append_assoc]
  exact hp _ (hq r hr)

theorem Balanced.flatMap {α : Type*} {f : α → List (Act ι)}
    (h : ∀ a, Balanced rank leaky held (f a)) (as : List α) :
    Balanced rank leaky held (as.flatMap f) := by
  induction as with
  | nil => exact .nil
  | cons a as ih => exact (h a).append ih

theorem Balanced.option {α : Type*} {f : α → List (Act ι)} (h : ∀ a, Balanced rank leaky held (f a))
    (o : Option α) : Balanced rank leaky held (o.elim [] f) := by
  cases o with
  | none => exact .nil
  | some a => exact h a

/-- A lock around a piece. -/
theorem Balanced.locked (hranks : ∀ h, held h → rank h < rank l)
    (hp : Balanced rank leaky (fun h => h = l ∨ held h) p) :
    Balanced rank leaky held (.acquire l :: (p ++ [.release l])) := by
  intro q hq
  refine ⟨hranks, ?_⟩
  show Disciplined rank leaky (fun h => h = l ∨ held h) (p ++ [.release l] ++ q)
  rw [List.append_assoc]
  refine hp _ ⟨.inl rfl, hq.congr fun h => ?_⟩
  constructor
  · rintro ⟨hne, hin⟩
    exact hin.resolve_left hne
  · intro hin
    exact ⟨fun heq => Nat.lt_irrefl _ (heq ▸ hranks h hin), .inr hin⟩

/-- A place where an exception may leave; the locks without guards are leaky. -/
theorem Balanced.throws {gs : List ι} (hnodup : gs.Nodup) (hguards : ∀ l ∈ gs, held l)
    (hleaky : ∀ l, held l → l ∉ gs → leaky l) : Balanced rank leaky held [.throws gs] :=
  fun _ hq => ⟨⟨hnodup, hguards, hleaky⟩, hq⟩

end

/-- **Every thread is disciplined** in what it still has to do. -/
structure Sound (rank : ι → ℕ) (leaky : ι → Prop) (s : Threads τ ι) : Prop where
  disciplined : ∀ t, Disciplined rank leaky (fun l => s.owner l = .thread t) (s.todo t)
  abandoned : ∀ l, s.owner l = .abandoned → leaky l

omit [DecidableEq τ] [DecidableEq ι] in
theorem idle_sound : Sound rank leaky (Threads.idle : Threads τ ι) where
  disciplined t := fun l hl => by cases hl
  abandoned l hl := by cases hl

/-! ### What turns keep -/

omit [DecidableEq τ] [DecidableEq ι] in
/-- A thread that has locks has still something to do. -/
theorem Sound.todo_ne_nil (h : Sound rank leaky s) (howner : s.owner l = .thread t) :
    s.todo t ≠ [] := by
  intro hnil
  have hdis := h.disciplined t
  rw [hnil] at hdis
  exact hdis l howner

omit [DecidableEq ι] in
/-- The list of one thread is replaced, and the locks of the others stay. -/
theorem Sound.update (h : Sound rank leaky s) {owner : ι → Holder τ}
    (hself : Disciplined rank leaky (fun l => owner l = .thread t) p)
    (hothers : ∀ u, u ≠ t → ∀ l, owner l = .thread u ↔ s.owner l = .thread u)
    (habandoned : ∀ l, owner l = .abandoned → leaky l) :
    Sound rank leaky ⟨Function.update s.todo t p, owner⟩ where
  disciplined u := by
    show Disciplined rank leaky (fun l => owner l = .thread u) (Function.update s.todo t p u)
    by_cases hu : u = t
    · rw [hu, Function.update_self]
      exact hself
    · rw [Function.update_of_ne hu]
      exact (h.disciplined u).congr (hothers u hu)
  abandoned := habandoned

theorem Sound.turn (h : Sound rank leaky s) (hturn : Turn s t s') : Sound rank leaky s' := by
  have hdis := h.disciplined t
  cases hturn with
  | acquire l p next free =>
    rw [next] at hdis
    refine h.update (hdis.2.congr fun m => ?_) (fun u hu m => ?_) fun m hm => ?_
    · rw [Function.update_apply]
      split
      · rename_i hm
        simp [hm]
      · rename_i hm
        simp [hm]
    · rw [Function.update_apply]
      split
      · rename_i hm
        rw [hm, free]
        simp [hu.symm]
      · rfl
    · rw [Function.update_apply] at hm
      split at hm
      · cases hm
      · exact h.abandoned m hm
  | release l p next =>
    rw [next] at hdis
    have howner : s.owner l = .thread t := hdis.1
    refine h.update (hdis.2.congr fun m => ?_) (fun u hu m => ?_) fun m hm => ?_
    · rw [Function.update_apply]
      split
      · rename_i hm
        simp [hm]
      · rename_i hm
        simp [hm]
    · rw [Function.update_apply]
      split
      · rename_i hm
        rw [hm, howner]
        simp [hu.symm]
      · rfl
    · rw [Function.update_apply] at hm
      split at hm
      · cases hm
      · exact h.abandoned m hm
  | passes gs p next =>
    rw [next] at hdis
    exact h.update hdis.2 (fun u hu m => Iff.rfl) h.abandoned
  | throws gs p next =>
    rw [next] at hdis
    obtain ⟨⟨hnodup, hguards, hleaky⟩, -⟩ := hdis
    refine h.update ((disciplined_releases hnodup).congr fun m => ?_) (fun u hu m => ?_)
      fun m hm => ?_
    · rw [abandon_eq_thread]
      exact ⟨fun hm => hm.2 rfl, fun hm => ⟨hguards m hm, fun _ => hm⟩⟩
    · rw [abandon_eq_thread]
      exact ⟨fun hm => hm.1, fun hm => ⟨hm, fun heq => absurd heq hu⟩⟩
    · rcases abandon_eq_abandoned.mp hm with hold | ⟨howner, hnot⟩
      · exact h.abandoned m hold
      · exact hleaky m howner hnot

/-- **A step keeps the discipline** when what is begun has it. -/
theorem Sound.step {calls : List (Act ι) → Prop}
    (hcalls : ∀ p, calls p → Disciplined rank leaky (fun _ => False) p)
    (h : Sound rank leaky s) (hstep : Step calls s s') : Sound rank leaky s' := by
  cases hstep with
  | turn t hturn => exact h.turn hturn
  | call t p done called =>
    refine h.update ((hcalls p called).congr fun l => ?_) (fun u hu l => Iff.rfl) h.abandoned
    exact ⟨fun howner => h.todo_ne_nil howner done, False.elim⟩

theorem Reachable.sound {calls : List (Act ι) → Prop}
    (hcalls : ∀ p, calls p → Disciplined rank leaky (fun _ => False) p)
    (h : Reachable calls s) : Sound rank leaky s := by
  induction h with
  | refl => exact idle_sound
  | tail _ hstep ih => exact ih.step hcalls hstep

/-! ### Nobody waits in a circle -/

/-- The thread can move, or it waits for the lock of such a thread. -/
inductive Alive (s : Threads τ ι) : τ → Prop
  | turns (t : τ) (s' : Threads τ ι) (turn : Turn s t s') : Alive s t
  | waits (t u : τ) (l : ι) (p : List (Act ι)) (next : s.todo t = .acquire l :: p)
      (locked : s.owner l = .thread u) (behind : Alive s u) : Alive s t

theorem Alive.exists_turn (h : Alive s t) : ∃ u s', Turn s u s' := by
  induction h with
  | turns t s' turn => exact ⟨t, s', turn⟩
  | waits t u l p next locked behind ih => exact ih

/-- What the head of the list of a thread means for it. -/
theorem Sound.head_cases (h : Sound rank leaky s) (t : τ) :
    s.todo t = [] ∨ (∃ s', Turn s t s') ∨
      ∃ l p, s.todo t = .acquire l :: p ∧ s.owner l ≠ .free ∧
        ∀ m, s.owner m = .thread t → rank m < rank l := by
  have hdis := h.disciplined t
  cases htodo : s.todo t with
  | nil => exact .inl rfl
  | cons a p =>
    refine .inr ?_
    rw [htodo] at hdis
    cases a with
    | release l => exact .inl ⟨_, .release l p htodo⟩
    | throws gs => exact .inl ⟨_, .passes gs p htodo⟩
    | acquire l =>
      by_cases hfree : s.owner l = .free
      · exact .inl ⟨_, .acquire l p htodo hfree⟩
      · exact .inr ⟨l, p, rfl, hfree, hdis.1⟩

section order

variable {bound : ℕ} (hbound : ∀ l, rank l ≤ bound)
  (hleaky : ∀ l l', rank l < rank l' → ¬leaky l')
include hbound hleaky

/-- The thread that has a lock is alive: what it waits for ranks higher, and so on. -/
theorem Sound.owner_alive (h : Sound rank leaky s) (howner : s.owner l = .thread t) :
    Alive s t := by
  obtain ⟨n, hn⟩ : ∃ n, bound - rank l ≤ n := ⟨_, Nat.le_refl _⟩
  induction n generalizing l t with
  | zero =>
    rcases h.head_cases t with hnil | ⟨s', hturn⟩ | ⟨l', p, hnext, -, hranks⟩
    · exact absurd hnil (h.todo_ne_nil howner)
    · exact .turns t s' hturn
    · have hlt := hranks l howner
      have hle := hbound l'
      omega
  | succ n ih =>
    rcases h.head_cases t with hnil | ⟨s', hturn⟩ | ⟨l', p, hnext, hlocked, hranks⟩
    · exact absurd hnil (h.todo_ne_nil howner)
    · exact .turns t s' hturn
    · have hlt := hranks l howner
      cases howner' : s.owner l' with
      | free => exact absurd howner' hlocked
      | abandoned => exact absurd (h.abandoned l' howner') (hleaky l l' hlt)
      | thread u => exact .waits t u l' p hnext howner' (ih howner' (by omega))

/-- **No deadlock**: a thread that has something to do is alive or waits for an abandoned lock. -/
theorem Sound.alive (h : Sound rank leaky s) (t : τ) :
    s.todo t = [] ∨ Alive s t ∨
      ∃ l p, s.todo t = .acquire l :: p ∧ s.owner l = .abandoned := by
  rcases h.head_cases t with hnil | ⟨s', hturn⟩ | ⟨l, p, hnext, hlocked, -⟩
  · exact .inl hnil
  · exact .inr (.inl (.turns t s' hturn))
  · cases howner : s.owner l with
    | free => exact absurd howner hlocked
    | abandoned => exact .inr (.inr ⟨l, p, hnext, howner⟩)
    | thread u =>
      exact .inr (.inl (.waits t u l p hnext howner (h.owner_alive hbound hleaky howner)))

/-- **When nobody can move any more** all threads are done but those that wait for abandoned
locks, and all other locks are free. -/
theorem Sound.settled (h : Sound rank leaky s) (hstuck : ∀ t s', ¬Turn s t s') :
    (∀ t, s.todo t = [] ∨ ∃ l p, s.todo t = .acquire l :: p ∧ s.owner l = .abandoned) ∧
      ∀ l, s.owner l = .free ∨ s.owner l = .abandoned := by
  have hdead : ∀ t, ¬Alive s t := fun t halive => by
    obtain ⟨u, s', hturn⟩ := halive.exists_turn
    exact hstuck u s' hturn
  refine ⟨fun t => ?_, fun l => ?_⟩
  · rcases h.alive hbound hleaky t with hnil | halive | hwaits
    · exact .inl hnil
    · exact absurd halive (hdead t)
    · exact .inr hwaits
  · cases howner : s.owner l with
    | free => exact .inl rfl
    | abandoned => exact .inr rfl
    | thread t => exact absurd (h.owner_alive hbound hleaky howner) (hdead t)

end order

/-! ### The turns run out -/

/-- How many turns a list may take. -/
def weight : List (Act ι) → ℕ
  | [] => 0
  | .acquire _ :: p => weight p + 1
  | .release _ :: p => weight p + 1
  | .throws gs :: p => max gs.length (weight p) + 1

omit [DecidableEq ι] in
theorem weight_releases (gs : List ι) : weight (gs.map .release) = gs.length := by
  induction gs with
  | nil => rfl
  | cons g gs ih => exact congrArg (· + 1) ih

/-- A turn leaves less to do. -/
theorem Turn.weight_lt (h : Turn s t s') : ∃ p, s'.todo = Function.update s.todo t p ∧
    weight p < weight (s.todo t) := by
  cases h with
  | acquire l p next free =>
    refine ⟨p, rfl, ?_⟩
    rw [next]
    exact Nat.lt_succ_self _
  | release l p next =>
    refine ⟨p, rfl, ?_⟩
    rw [next]
    exact Nat.lt_succ_self _
  | passes gs p next =>
    refine ⟨p, rfl, ?_⟩
    rw [next]
    exact Nat.lt_succ_of_le (Nat.le_max_right ..)
  | throws gs p next =>
    refine ⟨gs.map .release, rfl, ?_⟩
    rw [next, weight_releases]
    exact Nat.lt_succ_of_le (Nat.le_max_left ..)

/-- So many turns and nothing new. -/
inductive Turns : ℕ → Threads τ ι → Threads τ ι → Prop
  | refl (s : Threads τ ι) : Turns 0 s s
  | cons {n : ℕ} (t : τ) {s s₁ s' : Threads τ ι} (turn : Turn s t s₁) (rest : Turns n s₁ s') :
      Turns (n + 1) s s'

theorem Turns.sound {n : ℕ} (hturns : Turns n s s') (h : Sound rank leaky s) :
    Sound rank leaky s' := by
  induction hturns with
  | refl s => exact h
  | cons t turn rest ih => exact ih (h.turn turn)

variable [Fintype τ]

/-- How many turns all threads together may take. -/
def Threads.weight (s : Threads τ ι) : ℕ := ∑ t, LockOrder.weight (s.todo t)

theorem Turn.total_lt (h : Turn s t s') : s'.weight < s.weight := by
  obtain ⟨p, htodo, hlt⟩ := h.weight_lt
  refine Finset.sum_lt_sum (fun u _ => ?_) ⟨t, Finset.mem_univ t, ?_⟩
  · rw [htodo, Function.update_apply]
    split
    · rename_i hu
      rw [hu]
      exact Nat.le_of_lt hlt
    · exact Nat.le_refl _
  · rw [htodo, Function.update_self]
    exact hlt

/-- **Nobody moves forever** without something new to do. -/
theorem Turns.bounded {n : ℕ} (h : Turns n s s') : n + s'.weight ≤ s.weight := by
  induction h with
  | refl s => exact Nat.le_of_eq (Nat.zero_add _)
  | cons t turn rest ih =>
    have hlt := turn.total_lt
    omega

end LockOrder
