import Mathlib.Algebra.BigOperators.Group.Finset.Basic
import Mathlib.Algebra.BigOperators.Group.Finset.Piecewise
import Mathlib.Algebra.Order.BigOperators.Group.Finset
import Mathlib.Data.Fintype.Basic
import Mathlib.Data.List.Perm.Basic
import Mathlib.Logic.Relation
import Mathlib.Tactic.Common

/-!
# Objects that count their references

An object has a counter.  A variable that comes to point to it adds one, a variable that ends takes
one away, and the object goes with the last.  A thread may leave a reference in a handle, where
other threads find a bare address: what comes out of a handle may be gone.  An exception ends all
variables of its thread.

`Scoped` says that a thread uses only variables that it has and ends them all, `Promised` when a
call on handles may begin.  Then

* `Sound.step`: the counters are what points to the objects;
* `Sound.live`: nobody comes to an object that is gone;
* `Sound.settled`: when all calls are over, the objects are those that the open handles point to;
* `Sound.own`: no two handles point to one object, if calls that leave a reference take none.
-/

namespace RefCount

variable {τ ι κ : Type*} [Fintype τ] [DecidableEq τ] [DecidableEq ι] [DecidableEq κ]

/-- What a thread does with references.  Its variables are numbered from the newest one. -/
inductive Act (κ : Type*) where
  /-- a variable with a new object -/
  | make
  /-- a variable with what variable `i` points to -/
  | copy (i : ℕ)
  /-- a variable with what the handle points to -/
  | borrow (h : κ)
  | use (i : ℕ)
  | drop (i : ℕ)
  /-- the newest variable leaves its reference in the handle -/
  | detach (h : κ)
  /-- the reference of the handle is given back -/
  | release (h : κ)
  /-- an exception may leave here -/
  | throws
  deriving DecidableEq

/-- Threads, handles and objects. -/
structure Heap (τ ι κ : Type*) where
  todo : τ → List (Act κ)
  vars : τ → List ι
  /-- the address in a handle, which stays when the reference is given back -/
  addr : κ → Option ι
  /-- the handles with a reference -/
  opened : Finset κ
  /-- the counters of the objects that there are -/
  count : ι → Option ℤ

/-- No threads at work, no handles, no objects. -/
def Heap.idle : Heap τ ι κ := ⟨fun _ => [], fun _ => [], fun _ => none, ∅, fun _ => none⟩

/-- A reference more. -/
def addRef (count : ι → Option ℤ) (o : ι) : ι → Option ℤ :=
  Function.update count o ((count o).map (· + 1))

/-- A reference less; the last one deletes. -/
def release (count : ι → Option ℤ) (o : ι) : ι → Option ℤ :=
  Function.update count o ((count o).bind fun n => if n - 1 = 0 then none else some (n - 1))

variable {s s' : Heap τ ι κ} {t u : τ} {h : κ} {o : ι} {p q : List (Act κ)} {a : Act κ}

/-- One action of one thread. -/
inductive Turn (s : Heap τ ι κ) (t : τ) : Heap τ ι κ → Prop
  | make (o : ι) (p : List (Act κ)) (next : s.todo t = .make :: p) (free : s.count o = none) :
      Turn s t { s with
        todo := Function.update s.todo t p
        vars := Function.update s.vars t (o :: s.vars t)
        count := Function.update s.count o (some 1) }
  | copy (i : ℕ) (o : ι) (p : List (Act κ)) (next : s.todo t = .copy i :: p)
      (var : (s.vars t)[i]? = some o) :
      Turn s t { s with
        todo := Function.update s.todo t p
        vars := Function.update s.vars t (o :: s.vars t)
        count := addRef s.count o }
  | borrow (h : κ) (o : ι) (p : List (Act κ)) (next : s.todo t = .borrow h :: p)
      (var : s.addr h = some o) :
      Turn s t { s with
        todo := Function.update s.todo t p
        vars := Function.update s.vars t (o :: s.vars t)
        count := addRef s.count o }
  | use (i : ℕ) (p : List (Act κ)) (next : s.todo t = .use i :: p) :
      Turn s t { s with todo := Function.update s.todo t p }
  | drop (i : ℕ) (o : ι) (p : List (Act κ)) (next : s.todo t = .drop i :: p)
      (var : (s.vars t)[i]? = some o) :
      Turn s t { s with
        todo := Function.update s.todo t p
        vars := Function.update s.vars t ((s.vars t).eraseIdx i)
        count := release s.count o }
  | detach (h : κ) (o : ι) (os : List ι) (p : List (Act κ)) (next : s.todo t = .detach h :: p)
      (var : s.vars t = o :: os) :
      Turn s t { s with
        todo := Function.update s.todo t p
        vars := Function.update s.vars t os
        addr := Function.update s.addr h (some o)
        opened := insert h s.opened }
  | release (h : κ) (o : ι) (p : List (Act κ)) (next : s.todo t = .release h :: p)
      (var : s.addr h = some o) :
      Turn s t { s with
        todo := Function.update s.todo t p
        opened := s.opened.erase h
        count := release s.count o }
  | passes (p : List (Act κ)) (next : s.todo t = .throws :: p) :
      Turn s t { s with todo := Function.update s.todo t p }
  | throws (p : List (Act κ)) (next : s.todo t = .throws :: p) :
      Turn s t { s with
        todo := Function.update s.todo t (List.replicate (s.vars t).length (.drop 0)) }

/-- The object that an action of the thread comes to. -/
def Heap.target (s : Heap τ ι κ) (t : τ) : Act κ → Option ι
  | .copy i => (s.vars t)[i]?
  | .borrow h => s.addr h
  | .use i => (s.vars t)[i]?
  | .drop i => (s.vars t)[i]?
  | .release h => s.addr h
  | .make | .detach _ | .throws => none

/-- The action is about the handle. -/
def Touches (h : κ) (p : List (Act κ)) : Prop :=
  .borrow h ∈ p ∨ .release h ∈ p ∨ .detach h ∈ p

/-- Who gives a reference to a handle or takes it away is alone with the handle. -/
def Compat (p q : List (Act κ)) : Prop :=
  ∀ h, .release h ∈ p ∨ .detach h ∈ p → ¬Touches h q

/-- What who calls with handles keeps to: references are taken from open handles only, new ones are
left in others, and nobody else is about a handle that is opened or released. -/
structure Heap.Promised (s : Heap τ ι κ) (t : τ) (p : List (Act κ)) : Prop where
  opened : ∀ h, .borrow h ∈ p ∨ .release h ∈ p → h ∈ s.opened
  closed : ∀ h, .detach h ∈ p → h ∉ s.opened
  apart : ∀ u, u ≠ t → Compat p (s.todo u) ∧ Compat (s.todo u) p

/-- A turn of a thread, or a thread that has nothing to do begins something. -/
inductive Step (calls : List (Act κ) → Prop) (s : Heap τ ι κ) : Heap τ ι κ → Prop
  | turn (t : τ) {s' : Heap τ ι κ} (turn : Turn s t s') : Step calls s s'
  | call (t : τ) (p : List (Act κ)) (done : s.todo t = []) (called : calls p)
      (promised : s.Promised t p) :
      Step calls s { s with todo := Function.update s.todo t p }

/-- What a run from nothing comes to. -/
def Reachable (calls : List (Act κ) → Prop) (s : Heap τ ι κ) : Prop :=
  Relation.ReflTransGen (Step calls) .idle s

/-- With `n` variables: only these are used, all end, and the handle that a reference is left in or
given back from is not touched again. -/
def Scoped : ℕ → List (Act κ) → Prop
  | n, [] => n = 0
  | n, .make :: p => Scoped (n + 1) p
  | n, .copy i :: p => i < n ∧ Scoped (n + 1) p
  | n, .borrow _ :: p => Scoped (n + 1) p
  | n, .use i :: p => i < n ∧ Scoped n p
  | n, .drop i :: p => i < n ∧ Scoped (n - 1) p
  | n, .detach h :: p => 0 < n ∧ ¬Touches h p ∧ Scoped (n - 1) p
  | n, .release h :: p => ¬Touches h p ∧ Scoped n p
  | n, .throws :: p => Scoped n p

omit [DecidableEq κ] in
theorem scoped_drops (n : ℕ) : Scoped n (List.replicate n (.drop 0 : Act κ)) := by
  induction n with
  | zero => rfl
  | succ n ih => exact ⟨Nat.succ_pos n, ih⟩

/-- No handle is touched but by what was to be done before. -/
def Less (p q : List (Act κ)) : Prop :=
  ∀ a ∈ p, a ∈ q ∨ a = .drop 0

section

omit [DecidableEq κ]

theorem less_tail (a : Act κ) (p : List (Act κ)) : Less p (a :: p) :=
  fun _ hb => .inl (List.mem_cons_of_mem a hb)

theorem less_drops (n : ℕ) (q : List (Act κ)) : Less (List.replicate n (.drop 0)) q :=
  fun _ hb => .inr (List.eq_of_mem_replicate hb)

theorem Less.mem (hless : Less p q) (ha : a ∈ p) (hdrop : a ≠ .drop 0) : a ∈ q :=
  (hless a ha).resolve_right hdrop

theorem Less.touches (hless : Less p q) (ht : Touches h p) : Touches h q :=
  ht.imp (hless.mem · nofun) (.imp (hless.mem · nofun) (hless.mem · nofun))

theorem Compat.mono (hc : Compat p q) {p' q' : List (Act κ)} (hp : Less p' p)
    (hq : Less q' q) : Compat p' q' := by
  intro h hh ht
  exact hc h (hh.imp (hp.mem · nofun) (hp.mem · nofun)) (hq.touches ht)

end

/-! ### What a turn changes -/

section

omit [Fintype τ]

/-- Nobody else has something else to do. -/
theorem Turn.todo_of_ne (hturn : Turn s t s') (hu : u ≠ t) : s'.todo u = s.todo u := by
  cases hturn <;> exact Function.update_of_ne hu _ _

/-- The thread has nothing more to do than before. -/
theorem Turn.less (hturn : Turn s t s') : Less (s'.todo t) (s.todo t) := by
  have htail : ∀ {a : Act κ} {p : List (Act κ)}, s.todo t = a :: p →
      Less (Function.update s.todo t p t) (s.todo t) := by
    intro a p next
    rw [Function.update_self, next]
    exact less_tail a p
  cases hturn with
  | make o p next => exact htail next
  | copy i o p next => exact htail next
  | borrow h o p next => exact htail next
  | use i p next => exact htail next
  | drop i o p next => exact htail next
  | detach h o os p next => exact htail next
  | release h o p next => exact htail next
  | passes p next => exact htail next
  | throws p next =>
    show Less (Function.update s.todo t _ t) _
    rw [Function.update_self]
    exact less_drops _ _

/-- A handle is opened by who detaches to it, and closed by who releases it. -/
theorem Turn.opened (hturn : Turn s t s') :
    s'.opened = s.opened ∨ (∃ h, .detach h ∈ s.todo t ∧ s'.opened = insert h s.opened) ∨
      ∃ h, .release h ∈ s.todo t ∧ s'.opened = s.opened.erase h := by
  cases hturn with
  | detach h o os p next => exact .inr (.inl ⟨h, next ▸ List.mem_cons_self, rfl⟩)
  | release h o p next => exact .inr (.inr ⟨h, next ▸ List.mem_cons_self, rfl⟩)
  | _ => exact .inl rfl

end

/-! ### Counting -/

/-- The variables and the open handles that point to the object. -/
def Heap.owners (s : Heap τ ι κ) (o : ι) : ℕ :=
  ∑ t, (s.vars t).count o + (s.opened.filter fun h => s.addr h = some o).card

/-- The objects are those with owners, and count them. -/
def Counted (count : ι → Option ℤ) (owners : ι → ℕ) : Prop :=
  ∀ o, count o = if owners o = 0 then none else some (owners o : ℤ)

theorem count_of_ne {o' : ι} (ho : o' ≠ o) : [o].count o' = 0 :=
  List.count_eq_zero.mpr (by simpa using ho)

section counted

variable {count : ι → Option ℤ} {owners owners' : ι → ℕ}

omit [DecidableEq ι] in
theorem Counted.isSome (hc : Counted count owners) (ho : 0 < owners o) : (count o).isSome := by
  rw [hc o, if_neg (by omega)]
  rfl

theorem Counted.make (hc : Counted count owners) (hfree : count o = none)
    (hmore : ∀ o', owners' o' = owners o' + [o].count o') :
    Counted (Function.update count o (some 1)) owners' := by
  have hzero : owners o = 0 := by
    by_contra hne
    rw [hc o, if_neg hne] at hfree
    cases hfree
  intro o'
  by_cases ho : o' = o
  · subst ho
    rw [Function.update_self, hmore o', hzero, List.count_singleton_self]
    rfl
  · rw [Function.update_of_ne ho, hmore o', count_of_ne ho]
    exact hc o'

theorem Counted.addRef (hc : Counted count owners) (hpos : 0 < owners o)
    (hmore : ∀ o', owners' o' = owners o' + [o].count o') : Counted (addRef count o) owners' := by
  intro o'
  unfold RefCount.addRef
  by_cases ho : o' = o
  · subst ho
    rw [Function.update_self, hmore o', List.count_singleton_self, hc o', if_neg (by omega),
      if_neg (by omega)]
    simp
  · rw [Function.update_of_ne ho, hmore o', count_of_ne ho]
    exact hc o'

theorem Counted.release (hc : Counted count owners)
    (hless : ∀ o', owners' o' + [o].count o' = owners o') :
    Counted (release count o) owners' := by
  intro o'
  have ho' := hless o'
  unfold RefCount.release
  by_cases ho : o' = o
  · subst ho
    rw [List.count_singleton_self] at ho'
    rw [Function.update_self, hc o', if_neg (by omega), ← ho']
    show (if ((owners' o' + 1 : ℕ) : ℤ) - 1 = 0 then none else some _) = _
    by_cases hzero : owners' o' = 0
    · rw [if_pos (by omega), if_pos hzero]
    · rw [if_neg (by omega), if_neg hzero]
      congr 1
      omega
  · rw [count_of_ne ho, Nat.add_zero] at ho'
    rw [Function.update_of_ne ho, ho']
    exact hc o'

omit [DecidableEq ι] in
theorem Counted.congr (hc : Counted count owners) (hsame : ∀ o, owners' o = owners o) :
    Counted count owners' := by
  intro o
  rw [hsame o]
  exact hc o

end counted

omit [DecidableEq κ] in
/-- The variables of one thread are replaced. -/
theorem sum_vars (s : Heap τ ι κ) (t : τ) (os : List ι) (o : ι) :
    ∑ u, (Function.update s.vars t os u).count o + (s.vars t).count o =
      ∑ u, (s.vars u).count o + os.count o := by
  have hsplit : ∀ f : τ → ℕ, ∑ u, f u = f t + ∑ u ∈ Finset.univ \ {t}, f u := fun f => by
    rw [← Finset.sum_sdiff (Finset.subset_univ {t}), Finset.sum_singleton, Nat.add_comm]
  have hrest : ∑ u ∈ Finset.univ \ {t}, (Function.update s.vars t os u).count o =
      ∑ u ∈ Finset.univ \ {t}, (s.vars u).count o := by
    refine Finset.sum_congr rfl fun u hu => ?_
    rw [Function.update_of_ne (by simpa using hu)]
  rw [hsplit, hsplit (fun u => (s.vars u).count o), hrest, Function.update_self]
  omega

theorem count_cons_eq (o : ι) (os : List ι) (o' : ι) :
    (o :: os).count o' = [o].count o' + os.count o' := by
  rw [← List.singleton_append, List.count_append]

theorem count_eraseIdx {os : List ι} {i : ℕ} (ho : os[i]? = some o) (o' : ι) :
    (os.eraseIdx i).count o' + [o].count o' = os.count o' := by
  obtain ⟨hi, hget⟩ := List.getElem?_eq_some_iff.mp ho
  have hperm := (List.getElem_cons_eraseIdx_perm hi).count_eq o'
  rw [hget, count_cons_eq] at hperm
  omega

omit [DecidableEq τ] [DecidableEq κ] in
theorem owners_pos_of_var (ho : o ∈ s.vars t) : 0 < s.owners o := by
  have hone : 0 < (s.vars t).count o := List.count_pos_iff.mpr ho
  have hle : (s.vars t).count o ≤ ∑ u, (s.vars u).count o :=
    Finset.single_le_sum (f := fun u => (s.vars u).count o) (fun _ _ => Nat.zero_le _)
      (Finset.mem_univ t)
  unfold Heap.owners
  omega

omit [DecidableEq τ] [DecidableEq κ] in
theorem owners_pos_of_handle (hopened : h ∈ s.opened) (ho : s.addr h = some o) :
    0 < s.owners o := by
  have hmem : h ∈ s.opened.filter fun h => s.addr h = some o :=
    Finset.mem_filter.mpr ⟨hopened, ho⟩
  have hpos := Finset.card_pos.mpr ⟨h, hmem⟩
  unfold Heap.owners
  omega

theorem card_opened_insert {opened : Finset κ} (addr : κ → Option ι) (hnot : h ∉ opened)
    (o o' : ι) :
    ((insert h opened).filter fun k => Function.update addr h (some o) k = some o').card =
      (opened.filter fun k => addr k = some o').card + [o].count o' := by
  have hrest : (opened.filter fun k => Function.update addr h (some o) k = some o') =
      opened.filter fun k => addr k = some o' := by
    refine Finset.filter_congr fun k hk => ?_
    have hne : k ≠ h := fun heq => hnot (heq ▸ hk)
    rw [Function.update_of_ne hne]
  rw [Finset.filter_insert, Function.update_self, hrest]
  by_cases ho : o = o'
  · subst ho
    rw [if_pos rfl, Finset.card_insert_of_notMem fun hin => hnot (Finset.mem_filter.mp hin).1]
    simp
  · rw [if_neg fun heq => ho (Option.some.inj heq)]
    simp [ho]

theorem card_opened_erase {opened : Finset κ} {addr : κ → Option ι} (hin : h ∈ opened)
    (ho : addr h = some o) (o' : ι) :
    ((opened.erase h).filter fun k => addr k = some o').card + [o].count o' =
      (opened.filter fun k => addr k = some o').card := by
  have hback := card_opened_insert addr (Finset.notMem_erase h opened) o o'
  rw [Finset.insert_erase hin, ← ho, Function.update_eq_self] at hback
  rw [hback]

/-! ### What turns keep -/

/-- The threads keep to their variables and to the handles, and the counters are right. -/
structure Sound (s : Heap τ ι κ) : Prop where
  inScope : ∀ t, Scoped (s.vars t).length (s.todo t)
  counted : Counted s.count s.owners
  opened : ∀ t h, .borrow h ∈ s.todo t ∨ .release h ∈ s.todo t → h ∈ s.opened
  closed : ∀ t h, .detach h ∈ s.todo t → h ∉ s.opened
  compat : ∀ t u, t ≠ u → Compat (s.todo t) (s.todo u)
  filled : ∀ h ∈ s.opened, (s.addr h).isSome

omit [DecidableEq τ] [DecidableEq κ] in
theorem idle_sound : Sound (Heap.idle : Heap τ ι κ) where
  inScope t := rfl
  counted o := by simp [Heap.owners, Heap.idle]
  opened t h hh := by simp [Heap.idle] at hh
  closed t h hh := by simp [Heap.idle] at hh
  compat t u _ h _ ht := by simp [Heap.idle, Touches] at ht
  filled h hh := by simp [Heap.idle] at hh

section

omit [DecidableEq κ]

/-- One thread has less to do, and the handles that anyone is about are as they were. -/
theorem Sound.set (hs : Sound s) {vars : τ → List ι} {addr : κ → Option ι} {opened : Finset κ}
    {count : ι → Option ℤ} (hless : Less p (s.todo t))
    (hscoped : Scoped (vars t).length p) (hvars : ∀ u, u ≠ t → vars u = s.vars u)
    (hcounted : Counted count (Heap.owners ⟨Function.update s.todo t p, vars, addr, opened, count⟩))
    (hopened : ∀ u h, Touches h (Function.update s.todo t p u) → (h ∈ opened ↔ h ∈ s.opened))
    (hfilled : ∀ h ∈ opened, (addr h).isSome) :
    Sound ⟨Function.update s.todo t p, vars, addr, opened, count⟩ := by
  have hall : ∀ u, Less (Function.update s.todo t p u) (s.todo u) := fun u => by
    by_cases hu : u = t
    · subst hu
      rw [Function.update_self]
      exact hless
    · rw [Function.update_of_ne hu]
      exact fun a ha => .inl ha
  refine ⟨fun u => ?_, hcounted, fun u h hh => ?_, fun u h hh => ?_, fun u v hne => ?_, hfilled⟩
  · show Scoped (vars u).length (Function.update s.todo t p u)
    by_cases hu : u = t
    · subst hu
      rw [Function.update_self]
      exact hscoped
    · rw [Function.update_of_ne hu, hvars u hu]
      exact hs.inScope u
  · refine (hopened u h (hh.imp id .inl)).mpr (hs.opened u h ?_)
    exact hh.imp ((hall u).mem · nofun) ((hall u).mem · nofun)
  · rw [hopened u h (.inr (.inr hh))]
    exact hs.closed u h ((hall u).mem hh nofun)
  · exact (hs.compat u v hne).mono (hall u) (hall v)

/-- A variable more. -/
theorem owners_push (s : Heap τ ι κ) (t : τ) (o o' : ι) {todo : τ → List (Act κ)}
    {count : ι → Option ℤ} :
    Heap.owners ⟨todo, Function.update s.vars t (o :: s.vars t), s.addr, s.opened, count⟩ o' =
      s.owners o' + [o].count o' := by
  have hsum := sum_vars s t (o :: s.vars t) o'
  have hcons := count_cons_eq o (s.vars t) o'
  dsimp only [Heap.owners]
  omega

/-- A variable less. -/
theorem owners_eraseIdx (s : Heap τ ι κ) {i : ℕ} (ho : (s.vars t)[i]? = some o) (o' : ι)
    {todo : τ → List (Act κ)} {count : ι → Option ℤ} :
    Heap.owners ⟨todo, Function.update s.vars t ((s.vars t).eraseIdx i), s.addr, s.opened, count⟩
      o' + [o].count o' = s.owners o' := by
  have hsum := sum_vars s t ((s.vars t).eraseIdx i) o'
  have herase := count_eraseIdx ho o'
  dsimp only [Heap.owners]
  omega

end

/-- A variable leaves its reference in a handle. -/
theorem owners_detach (s : Heap τ ι κ) {os : List ι} (ho : s.vars t = o :: os)
    (hnot : h ∉ s.opened) (o' : ι) {todo : τ → List (Act κ)} {count : ι → Option ℤ} :
    Heap.owners ⟨todo, Function.update s.vars t os, Function.update s.addr h (some o),
      insert h s.opened, count⟩ o' = s.owners o' := by
  have hsum := sum_vars s t os o'
  rw [ho, count_cons_eq] at hsum
  have hcard := card_opened_insert s.addr hnot o o'
  dsimp only [Heap.owners]
  omega

omit [DecidableEq τ] in
/-- A handle gives its reference back. -/
theorem owners_erase (s : Heap τ ι κ) (hin : h ∈ s.opened) (ho : s.addr h = some o) (o' : ι)
    {todo : τ → List (Act κ)} {count : ι → Option ℤ} :
    Heap.owners ⟨todo, s.vars, s.addr, s.opened.erase h, count⟩ o' + [o].count o' =
      s.owners o' := by
  have hcard := card_opened_erase hin ho o'
  dsimp only [Heap.owners]
  omega

omit [DecidableEq κ] in
/-- Who is not about a handle does not mind it. -/
theorem Sound.untouched (hs : Sound s) (hnext : s.todo t = a :: p)
    (hself : ¬Touches h p) (ha : a = .release h ∨ a = .detach h) (u : τ) :
    ¬Touches h (Function.update s.todo t p u) := by
  by_cases hu : u = t
  · subst hu
    rw [Function.update_self]
    exact hself
  · rw [Function.update_of_ne hu]
    refine hs.compat t u (Ne.symm hu) h ?_
    rw [hnext]
    rcases ha with rfl | rfl
    · exact .inl List.mem_cons_self
    · exact .inr List.mem_cons_self

theorem Sound.turn (hs : Sound s) (hturn : Turn s t s') : Sound s' := by
  have hscope := hs.inScope t
  cases hturn with
  | make o p next free =>
    rw [next] at hscope
    refine hs.set (next ▸ less_tail _ p) ?_ (fun u hu => Function.update_of_ne hu _ _) ?_
      (fun _ _ _ => Iff.rfl) hs.filled
    · rw [Function.update_self]
      exact hscope
    · exact hs.counted.make free fun o' => owners_push s t o o'
  | copy i o p next var =>
    rw [next] at hscope
    refine hs.set (next ▸ less_tail _ p) ?_ (fun u hu => Function.update_of_ne hu _ _) ?_
      (fun _ _ _ => Iff.rfl) hs.filled
    · rw [Function.update_self]
      exact hscope.2
    · exact hs.counted.addRef (owners_pos_of_var (List.mem_of_getElem? var))
        fun o' => owners_push s t o o'
  | borrow h o p next var =>
    rw [next] at hscope
    refine hs.set (next ▸ less_tail _ p) ?_ (fun u hu => Function.update_of_ne hu _ _) ?_
      (fun _ _ _ => Iff.rfl) hs.filled
    · rw [Function.update_self]
      exact hscope
    · have hin := hs.opened t h (.inl (next ▸ List.mem_cons_self))
      exact hs.counted.addRef (owners_pos_of_handle hin var) fun o' => owners_push s t o o'
  | use i p next =>
    rw [next] at hscope
    exact hs.set (next ▸ less_tail _ p) hscope.2 (fun _ _ => rfl) hs.counted
      (fun _ _ _ => Iff.rfl) hs.filled
  | drop i o p next var =>
    rw [next] at hscope
    refine hs.set (next ▸ less_tail _ p) ?_ (fun u hu => Function.update_of_ne hu _ _) ?_
      (fun _ _ _ => Iff.rfl) hs.filled
    · rw [Function.update_self, List.length_eraseIdx_of_lt hscope.1]
      exact hscope.2
    · exact hs.counted.release fun o' => owners_eraseIdx s var o'
  | detach h o os p next var =>
    rw [next] at hscope
    have hnot := hs.closed t h (next ▸ List.mem_cons_self)
    refine hs.set (next ▸ less_tail _ p) ?_ (fun u hu => Function.update_of_ne hu _ _) ?_ ?_ ?_
    · rw [Function.update_self]
      have hlen := hscope.2.2
      rwa [var] at hlen
    · exact hs.counted.congr fun o' => owners_detach s var hnot o'
    · intro u k hk
      have hne : k ≠ h := fun heq =>
        hs.untouched next hscope.2.1 (.inr rfl) u (heq ▸ hk)
      rw [Finset.mem_insert]
      exact ⟨fun hin => hin.resolve_left hne, .inr⟩
    · intro k hk
      by_cases heq : k = h
      · subst heq
        rw [Function.update_self]
        rfl
      · rw [Function.update_of_ne heq]
        exact hs.filled k ((Finset.mem_insert.mp hk).resolve_left heq)
  | release h o p next var =>
    rw [next] at hscope
    have hin := hs.opened t h (.inr (next ▸ List.mem_cons_self))
    refine hs.set (next ▸ less_tail _ p) hscope.2 (fun _ _ => rfl) ?_ ?_ ?_
    · exact hs.counted.release fun o' => owners_erase s hin var o'
    · intro u k hk
      have hne : k ≠ h := fun heq =>
        hs.untouched next hscope.1 (.inl rfl) u (heq ▸ hk)
      rw [Finset.mem_erase]
      exact ⟨And.right, fun hin => ⟨hne, hin⟩⟩
    · exact fun k hk => hs.filled k (Finset.mem_of_mem_erase hk)
  | passes p next =>
    rw [next] at hscope
    exact hs.set (next ▸ less_tail _ p) hscope (fun _ _ => rfl) hs.counted
      (fun _ _ _ => Iff.rfl) hs.filled
  | throws p next =>
    exact hs.set (less_drops _ _) (scoped_drops _) (fun _ _ => rfl) hs.counted
      (fun _ _ _ => Iff.rfl) hs.filled

/-- **A step keeps the counters right** when what is begun keeps to its variables. -/
theorem Sound.step {calls : List (Act κ) → Prop} (hcalls : ∀ p, calls p → Scoped 0 p)
    (hs : Sound s) (hstep : Step calls s s') : Sound s' := by
  cases hstep with
  | turn t hturn => exact hs.turn hturn
  | call t p done called promised =>
    have hscope := hs.inScope t
    rw [done] at hscope
    have hat : ∀ u, u ≠ t → Function.update s.todo t p u = s.todo u := fun u hu =>
      Function.update_of_ne hu _ _
    refine ⟨fun u => ?_, hs.counted, fun u h hh => ?_, fun u h hh => ?_, fun u v hne => ?_,
      hs.filled⟩
    · show Scoped (s.vars u).length (Function.update s.todo t p u)
      by_cases hu : u = t
      · subst hu
        rw [Function.update_self, show (s.vars u).length = 0 from hscope]
        exact hcalls p called
      · rw [hat u hu]
        exact hs.inScope u
    · change .borrow h ∈ Function.update s.todo t p u ∨ .release h ∈ Function.update s.todo t p u
        at hh
      by_cases hu : u = t
      · subst hu
        rw [Function.update_self] at hh
        exact promised.opened h hh
      · rw [hat u hu] at hh
        exact hs.opened u h hh
    · change .detach h ∈ Function.update s.todo t p u at hh
      by_cases hu : u = t
      · subst hu
        rw [Function.update_self] at hh
        exact promised.closed h hh
      · rw [hat u hu] at hh
        exact hs.closed u h hh
    · show Compat (Function.update s.todo t p u) (Function.update s.todo t p v)
      by_cases hu : u = t
      · subst hu
        rw [Function.update_self, hat v hne.symm]
        exact (promised.apart v hne.symm).1
      · by_cases hv : v = t
        · subst hv
          rw [Function.update_self, hat u hu]
          exact (promised.apart u hu).2
        · rw [hat u hu, hat v hv]
          exact hs.compat u v hne

theorem Reachable.sound {calls : List (Act κ) → Prop} (hcalls : ∀ p, calls p → Scoped 0 p)
    (hreach : Reachable calls s) : Sound s := by
  induction hreach with
  | refl => exact idle_sound
  | tail _ hstep ih => exact ih.step hcalls hstep

/-! ### What follows -/

omit [DecidableEq τ] [DecidableEq κ] in
/-- **Nobody comes to an object that is gone.** -/
theorem Sound.live (hs : Sound s) (hnext : s.todo t = a :: p) (hto : s.target t a = some o) :
    (s.count o).isSome := by
  refine hs.counted.isSome ?_
  cases a with
  | copy i => exact owners_pos_of_var (List.mem_of_getElem? hto)
  | use i => exact owners_pos_of_var (List.mem_of_getElem? hto)
  | drop i => exact owners_pos_of_var (List.mem_of_getElem? hto)
  | borrow h => exact owners_pos_of_handle (hs.opened t h (.inl (hnext ▸ List.mem_cons_self))) hto
  | release h => exact owners_pos_of_handle (hs.opened t h (.inr (hnext ▸ List.mem_cons_self))) hto
  | make => cases hto
  | detach h => cases hto
  | throws => cases hto

omit [DecidableEq τ] in
/-- **No object is left over**: when all calls are over, an object is there if an open handle
points to it, and it counts these handles. -/
theorem Sound.settled (hs : Sound s) (hdone : ∀ t, s.todo t = []) (o : ι) :
    s.count o = if (s.opened.filter fun h => s.addr h = some o) = ∅ then none else
      some ((s.opened.filter fun h => s.addr h = some o).card : ℤ) := by
  have hvars : ∀ t, s.vars t = [] := fun t => by
    have hscope := hs.inScope t
    rw [hdone t] at hscope
    exact List.length_eq_zero_iff.mp hscope
  have howners : s.owners o = (s.opened.filter fun h => s.addr h = some o).card := by
    simp [Heap.owners, hvars]
  rw [hs.counted o, howners]
  simp only [Finset.card_eq_zero]

/-! ### Objects of their own -/

/-- A reference is left by one action, which does not occur together with the other. -/
def Clash : Act κ → Act κ → Prop
  | .detach _, .detach _ => True
  | .detach _, .borrow _ => True
  | .borrow _, .detach _ => True
  | _, _ => False

/-- A call that leaves a reference leaves one, and takes none from handles. -/
def Leaves (p : List (Act κ)) : Prop := p.Pairwise fun a b => ¬Clash a b

omit [DecidableEq κ] in
theorem leaves_drops (n : ℕ) : Leaves (List.replicate n (.drop 0 : Act κ)) :=
  List.pairwise_replicate.mpr (.inr id)

/-- Every handle has its object for itself, and so will those that are about to be opened. -/
structure Own (s : Heap τ ι κ) : Prop where
  leaves : ∀ t, Leaves (s.todo t)
  handles : ∀ h ∈ s.opened, ∀ k ∈ s.opened, s.addr h = s.addr k → h = k
  fresh : ∀ t h, .detach h ∈ s.todo t → ∀ o ∈ s.vars t,
    (∀ u, u ≠ t → o ∉ s.vars u) ∧ ∀ k ∈ s.opened, s.addr k ≠ some o

omit [Fintype τ] [DecidableEq τ] [DecidableEq ι] [DecidableEq κ] in
theorem idle_own : Own (Heap.idle : Heap τ ι κ) where
  leaves t := .nil
  handles h hh := by simp [Heap.idle] at hh
  fresh t h hh := by simp [Heap.idle] at hh

omit [Fintype τ] [DecidableEq ι] [DecidableEq κ] in
theorem Own.set (hown : Own s) {vars : τ → List ι} {addr : κ → Option ι} {opened : Finset κ}
    {count : ι → Option ℤ} (hleaves : Leaves p) (hvars : ∀ u, u ≠ t → vars u = s.vars u)
    (hhandles : ∀ h ∈ opened, ∀ k ∈ opened, addr h = addr k → h = k)
    (hself : ∀ h, .detach h ∈ p → ∀ o ∈ vars t,
      (∀ u, u ≠ t → o ∉ s.vars u) ∧ ∀ k ∈ opened, addr k ≠ some o)
    (hothers : ∀ u h, u ≠ t → .detach h ∈ s.todo u → ∀ o ∈ s.vars u,
      o ∉ vars t ∧ ∀ k ∈ opened, addr k ≠ some o) :
    Own ⟨Function.update s.todo t p, vars, addr, opened, count⟩ := by
  refine ⟨fun u => ?_, hhandles, fun u h hh o ho => ?_⟩
  · show Leaves (Function.update s.todo t p u)
    by_cases hu : u = t
    · subst hu
      rw [Function.update_self]
      exact hleaves
    · rw [Function.update_of_ne hu]
      exact hown.leaves u
  · change .detach h ∈ Function.update s.todo t p u at hh
    change o ∈ vars u at ho
    show (∀ v, v ≠ u → o ∉ vars v) ∧ _
    by_cases hu : u = t
    · subst hu
      rw [Function.update_self] at hh
      obtain ⟨halone, hnone⟩ := hself h hh o ho
      exact ⟨fun v hv => hvars v hv ▸ halone v hv, hnone⟩
    · rw [Function.update_of_ne hu] at hh
      rw [hvars u hu] at ho
      obtain ⟨hself', hnone⟩ := hothers u h hu hh o ho
      refine ⟨fun v hv => ?_, hnone⟩
      by_cases hvt : v = t
      · subst hvt
        exact hself'
      · rw [hvars v hvt]
        exact (hown.fresh u h hh o ho).1 v hv

omit [Fintype τ] [DecidableEq ι] [DecidableEq κ] in
/-- The variables of a thread point to nothing new. -/
theorem Own.same (hown : Own s) {os : List ι} {opened : Finset κ} (hleaves : Leaves p)
    (hless : Less p (s.todo t)) (hos : ∀ o ∈ os, o ∈ s.vars t) (hopened : opened ⊆ s.opened)
    (count : ι → Option ℤ) :
    Own ⟨Function.update s.todo t p, Function.update s.vars t os, s.addr, opened, count⟩ := by
  refine hown.set hleaves (fun u hu => Function.update_of_ne hu _ _)
    (fun h hh k hk => hown.handles h (hopened hh) k (hopened hk)) ?_ ?_
  · intro h hh o ho
    rw [Function.update_self] at ho
    obtain ⟨halone, hnone⟩ := hown.fresh t h (hless.mem hh nofun) o (hos o ho)
    exact ⟨halone, fun k hk => hnone k (hopened hk)⟩
  · intro u h hu hh o ho
    obtain ⟨halone, hnone⟩ := hown.fresh u h hh o ho
    rw [Function.update_self]
    exact ⟨fun hin => halone t (Ne.symm hu) (hos o hin), fun k hk => hnone k (hopened hk)⟩

omit [DecidableEq κ] in
/-- A new object is nobody else's. -/
theorem Own.make (hown : Own s) (hs : Sound s) (next : s.todo t = .make :: p)
    (free : s.count o = none) (count : ι → Option ℤ) :
    Own ⟨Function.update s.todo t p, Function.update s.vars t (o :: s.vars t), s.addr, s.opened,
      count⟩ := by
  have hleaves := hown.leaves t
  rw [next] at hleaves
  have hnobody : s.owners o = 0 := by
    by_contra hne
    have hsome := hs.counted.isSome (Nat.pos_of_ne_zero hne)
    rw [free] at hsome
    cases hsome
  have hvar : ∀ u, o ∉ s.vars u := fun u hin => by
    have hpos := owners_pos_of_var hin
    omega
  have hhandle : ∀ k ∈ s.opened, s.addr k ≠ some o := fun k hk heq => by
    have hpos := owners_pos_of_handle hk heq
    omega
  refine hown.set hleaves.of_cons (fun u hu => Function.update_of_ne hu _ _) hown.handles ?_ ?_
  · intro h hh o' ho'
    rw [Function.update_self] at ho'
    rcases List.mem_cons.mp ho' with rfl | ho'
    · exact ⟨fun u _ => hvar u, hhandle⟩
    · exact hown.fresh t h (next ▸ List.mem_cons_of_mem _ hh) o' ho'
  · intro u h hu hh o' ho'
    obtain ⟨halone, hnone⟩ := hown.fresh u h hh o' ho'
    rw [Function.update_self]
    refine ⟨fun hin => ?_, hnone⟩
    rcases List.mem_cons.mp hin with rfl | hin
    · exact hvar u ho'
    · exact halone t (Ne.symm hu) hin

omit [DecidableEq κ] in
/-- Who takes a reference from a handle leaves none in another. -/
theorem Own.borrow (hown : Own s) (hs : Sound s) (next : s.todo t = .borrow h :: p)
    (var : s.addr h = some o) (count : ι → Option ℤ) :
    Own ⟨Function.update s.todo t p, Function.update s.vars t (o :: s.vars t), s.addr, s.opened,
      count⟩ := by
  have hleaves := hown.leaves t
  rw [next] at hleaves
  have hin := hs.opened t h (.inl (next ▸ List.mem_cons_self))
  refine hown.set hleaves.of_cons (fun u hu => Function.update_of_ne hu _ _) hown.handles ?_ ?_
  · intro k hk
    exact absurd trivial ((List.pairwise_cons.mp hleaves).1 (.detach k) hk)
  · intro u k hu hk o' ho'
    obtain ⟨halone, hnone⟩ := hown.fresh u k hk o' ho'
    rw [Function.update_self]
    refine ⟨fun hin' => ?_, hnone⟩
    rcases List.mem_cons.mp hin' with rfl | hin'
    · exact hnone h hin var
    · exact halone t (Ne.symm hu) hin'

/-- A handle that is opened has its object for itself. -/
theorem Own.detach (hown : Own s) (hs : Sound s) {os : List ι} (next : s.todo t = .detach h :: p)
    (var : s.vars t = o :: os) :
    Own ⟨Function.update s.todo t p, Function.update s.vars t os,
      Function.update s.addr h (some o), insert h s.opened, s.count⟩ := by
  have hleaves := hown.leaves t
  rw [next] at hleaves
  have hnot := hs.closed t h (next ▸ List.mem_cons_self)
  have hin : o ∈ s.vars t := var ▸ List.mem_cons_self
  obtain ⟨-, hnone⟩ := hown.fresh t h (next ▸ List.mem_cons_self) o hin
  have haddr : ∀ k ∈ s.opened, Function.update s.addr h (some o) k = s.addr k := fun k hk =>
    Function.update_of_ne (fun heq : k = h => hnot (heq ▸ hk)) _ _
  refine hown.set hleaves.of_cons (fun u hu => Function.update_of_ne hu _ _) ?_ ?_ ?_
  · intro k hk l hl heq
    rcases Finset.mem_insert.mp hk with hkh | hk
    · rcases Finset.mem_insert.mp hl with hlh | hl
      · rw [hkh, hlh]
      · rw [hkh, Function.update_self, haddr l hl] at heq
        exact absurd heq.symm (hnone l hl)
    · rcases Finset.mem_insert.mp hl with hlh | hl
      · rw [hlh, Function.update_self, haddr k hk] at heq
        exact absurd heq (hnone k hk)
      · rw [haddr k hk, haddr l hl] at heq
        exact hown.handles k hk l hl heq
  · intro k hk
    exact absurd trivial ((List.pairwise_cons.mp hleaves).1 (.detach k) hk)
  · intro u k hu hk o' ho'
    obtain ⟨halone, hnone'⟩ := hown.fresh u k hk o' ho'
    have ho : o' ≠ o := fun heq => halone t (Ne.symm hu) (heq ▸ hin)
    rw [Function.update_self]
    refine ⟨fun hin' => halone t (Ne.symm hu) (var ▸ List.mem_cons_of_mem o hin'), ?_⟩
    intro l hl
    rcases Finset.mem_insert.mp hl with rfl | hl
    · rw [Function.update_self]
      exact fun heq => ho (Option.some.inj heq).symm
    · rw [haddr l hl]
      exact hnone' l hl

theorem Own.turn (hs : Sound s) (hown : Own s) (hturn : Turn s t s') : Own s' := by
  have hleaves := hown.leaves t
  have hsame : Function.update s.vars t (s.vars t) = s.vars := Function.update_eq_self _ _
  have htail : ∀ {a : Act κ} {p : List (Act κ)}, s.todo t = a :: p → Leaves p ∧ Less p (s.todo t) :=
    fun next => ⟨(next ▸ hleaves).of_cons, next ▸ less_tail _ _⟩
  cases hturn with
  | make o p next free => exact hown.make hs next free _
  | copy i o p next var =>
    refine hown.same (htail next).1 (htail next).2 ?_ (Finset.Subset.refl _) _
    intro o' ho'
    rcases List.mem_cons.mp ho' with rfl | ho'
    · exact List.mem_of_getElem? var
    · exact ho'
  | borrow h o p next var => exact hown.borrow hs next var _
  | use i p next =>
    have hown' := hown.same (htail next).1 (htail next).2 (fun _ => id)
      (Finset.Subset.refl s.opened) s.count
    rwa [hsame] at hown'
  | drop i o p next var =>
    exact hown.same (htail next).1 (htail next).2 (fun _ => List.mem_of_mem_eraseIdx)
      (Finset.Subset.refl _) _
  | detach h o os p next var => exact hown.detach hs next var
  | release h o p next var =>
    have hown' := hown.same (htail next).1 (htail next).2 (fun _ => id)
      (Finset.erase_subset h s.opened) (release s.count o)
    rwa [hsame] at hown'
  | passes p next =>
    have hown' := hown.same (htail next).1 (htail next).2 (fun _ => id)
      (Finset.Subset.refl s.opened) s.count
    rwa [hsame] at hown'
  | throws p next =>
    have hown' := hown.same (leaves_drops _) (less_drops (s.vars t).length (s.todo t))
      (fun o (ho : o ∈ s.vars t) => ho) (Finset.Subset.refl s.opened) s.count
    rwa [hsame] at hown'

theorem Own.step {calls : List (Act κ) → Prop} (hcalls : ∀ p, calls p → Leaves p)
    (hs : Sound s) (hown : Own s) (hstep : Step calls s s') : Own s' := by
  cases hstep with
  | turn t hturn => exact Own.turn hs hown hturn
  | call t p done called promised =>
    have hscope := hs.inScope t
    rw [done] at hscope
    have hnone : ∀ o, o ∉ s.vars t := fun o => by
      rw [List.length_eq_zero_iff.mp hscope]
      exact List.not_mem_nil
    refine hown.set (hcalls p called) (fun _ _ => rfl) hown.handles ?_ ?_
    · exact fun h _ o ho => absurd ho (hnone o)
    · exact fun u h hu hh o ho => ⟨hnone o, (hown.fresh u h hh o ho).2⟩

theorem Reachable.own {calls : List (Act κ) → Prop}
    (hcalls : ∀ p, calls p → Scoped 0 p ∧ Leaves p) (hreach : Reachable calls s) : Own s := by
  induction hreach with
  | refl => exact idle_own
  | tail hreach hstep ih =>
    exact ih.step (fun p hp => (hcalls p hp).2)
      (Reachable.sound (fun p hp => (hcalls p hp).1) hreach) hstep

omit [DecidableEq τ] in
/-- When all calls are over, the open handles have objects of their own, with one reference each,
and there are no others. -/
theorem Own.settled (hs : Sound s) (hown : Own s) (hdone : ∀ t, s.todo t = []) :
    (∀ h ∈ s.opened, ∃ o, s.addr h = some o ∧ s.count o = some 1) ∧
      ∀ o, (s.count o).isSome → ∃ h ∈ s.opened, s.addr h = some o := by
  refine ⟨fun h hh => ?_, fun o ho => ?_⟩
  · obtain ⟨o, ho⟩ := Option.isSome_iff_exists.mp (hs.filled h hh)
    have hone : (s.opened.filter fun k => s.addr k = some o) = {h} := by
      refine Finset.eq_singleton_iff_unique_mem.mpr ⟨Finset.mem_filter.mpr ⟨hh, ho⟩, ?_⟩
      intro k hk
      obtain ⟨hk, hk'⟩ := Finset.mem_filter.mp hk
      exact hown.handles k hk h hh (hk'.trans ho.symm)
    refine ⟨o, ho, ?_⟩
    rw [hs.settled hdone o, hone, if_neg (Finset.singleton_ne_empty h), Finset.card_singleton]
    rfl
  · rw [hs.settled hdone o] at ho
    split at ho
    · cases ho
    · rename_i hne
      obtain ⟨h, hh⟩ := Finset.nonempty_iff_ne_empty.mpr hne
      exact ⟨h, (Finset.mem_filter.mp hh).1, (Finset.mem_filter.mp hh).2⟩

/-! ### Pieces of calls -/

/-- The piece makes `n` variables of `m` and is about no handle. -/
def Piece (m n : ℕ) (p : List (Act κ)) : Prop :=
  (∀ h, ¬Touches h p) ∧ ∀ q, Scoped n q → Scoped m (p ++ q)

/-- The piece works with a variable and leaves the variables as they are. -/
def Body (p : List (Act κ)) : Prop := ∀ n, Piece (n + 1) (n + 1) p

section

omit [DecidableEq κ]

theorem touches_append : Touches h (p ++ q) ↔ Touches h p ∨ Touches h q := by
  simp only [Touches, List.mem_append]
  tauto

theorem Piece.nil (n : ℕ) : Piece n n ([] : List (Act κ)) :=
  ⟨fun h ht => by simp [Touches] at ht, fun _ => id⟩

theorem Piece.append {l m n : ℕ} (hp : Piece l m p) (hq : Piece m n q) : Piece l n (p ++ q) := by
  refine ⟨fun h ht => ?_, fun r hr => ?_⟩
  · exact (touches_append.mp ht).elim (hp.1 h) (hq.1 h)
  · rw [List.append_assoc]
    exact hp.2 _ (hq.2 r hr)

end

section

omit [DecidableEq κ]

theorem Piece.release_notMem {m n : ℕ} (hp : Piece m n p) (h : κ) : .release h ∉ p :=
  fun hh => hp.1 h (.inr (.inl hh))

theorem piece_make (n : ℕ) : Piece n (n + 1) [(.make : Act κ)] :=
  ⟨fun h ht => by simp [Touches] at ht, fun _ => id⟩

theorem piece_copy {i n : ℕ} (hi : i < n) : Piece n (n + 1) [(.copy i : Act κ)] :=
  ⟨fun h ht => by simp [Touches] at ht, fun _ hq => ⟨hi, hq⟩⟩

theorem piece_use {i n : ℕ} (hi : i < n) : Piece n n [(.use i : Act κ)] :=
  ⟨fun h ht => by simp [Touches] at ht, fun _ hq => ⟨hi, hq⟩⟩

theorem piece_drop {i n : ℕ} (hi : i < n + 1) : Piece (n + 1) n [(.drop i : Act κ)] :=
  ⟨fun h ht => by simp [Touches] at ht, fun _ hq => ⟨hi, hq⟩⟩

theorem piece_throws (n : ℕ) : Piece n n [(.throws : Act κ)] :=
  ⟨fun h ht => by simp [Touches] at ht, fun _ => id⟩

end

omit [DecidableEq κ] in
theorem Piece.flatMap {α : Type*} {n : ℕ} {f : α → List (Act κ)} (hf : ∀ x, Piece n n (f x))
    (xs : List α) : Piece n n (xs.flatMap f) := by
  induction xs with
  | nil => exact .nil n
  | cons x xs ih => exact (hf x).append ih

omit [DecidableEq κ] in
theorem Piece.ite {m n : ℕ} (b : Bool) (hp : Piece m n p) (hq : Piece m n q) :
    Piece m n (if b then p else q) := by
  cases b with
  | true => exact hp
  | false => exact hq

/-- A parameter by value: a copy of the newest variable that ends with the call. -/
def param (p : List (Act κ)) : List (Act κ) := [.copy 0] ++ p ++ [.drop 0]

section

omit [DecidableEq κ]

theorem Body.param (hp : Body p) : Body (param p) := fun n =>
  ((piece_copy (Nat.succ_pos n)).append (hp (n + 1))).append (piece_drop (Nat.succ_pos _))

theorem Body.append (hp : Body p) (hq : Body q) : Body (p ++ q) := fun n => (hp n).append (hq n)

theorem Body.flatMap {α : Type*} {f : α → List (Act κ)} (hf : ∀ x, Body (f x)) (xs : List α) :
    Body (xs.flatMap f) := fun n => Piece.flatMap (fun x => hf x n) xs

end

section

omit [DecidableEq κ]

theorem Body.ite (b : Bool) (hp : Body p) (hq : Body q) : Body (if b then p else q) := fun n =>
  Piece.ite b (hp n) (hq n)

theorem body_nil : Body ([] : List (Act κ)) := fun n => .nil (n + 1)

theorem body_use : Body [(.use 0 : Act κ)] := fun n => piece_use (Nat.succ_pos n)

theorem body_throws : Body [(.throws : Act κ)] := fun n => piece_throws (n + 1)

end

/-- A call may begin: it ends all its variables and keeps to the handles. -/
def Callable (p : List (Act κ)) : Prop := Scoped 0 p ∧ Leaves p

section

omit [DecidableEq κ]

theorem Clash.touches {b : Act κ} (hc : Clash a b) :
    (∃ h, Touches h [a]) ∧ ∃ h, Touches h [b] := by
  cases a with
  | detach h =>
    refine ⟨⟨h, .inr (.inr List.mem_cons_self)⟩, ?_⟩
    cases b with
    | detach k => exact ⟨k, .inr (.inr List.mem_cons_self)⟩
    | borrow k => exact ⟨k, .inl List.mem_cons_self⟩
    | make | copy | use | drop | release | throws => cases hc
  | borrow h =>
    refine ⟨⟨h, .inl List.mem_cons_self⟩, ?_⟩
    cases b with
    | detach k => exact ⟨k, .inr (.inr List.mem_cons_self)⟩
    | make | copy | borrow | use | drop | release | throws => cases hc
  | make | copy | use | drop | release | throws => cases hc

theorem touches_of_mem (ha : a ∈ p) (ht : Touches h [a]) : Touches h p := by
  rcases ht with ht | ht | ht
  · exact .inl (List.mem_singleton.mp ht ▸ ha)
  · exact .inr (.inl (List.mem_singleton.mp ht ▸ ha))
  · exact .inr (.inr (List.mem_singleton.mp ht ▸ ha))

/-- Between pieces that are about no handle there may be one action on one. -/
theorem leaves_of_plain (hp : ∀ h, ¬Touches h p) (hq : ∀ h, ¬Touches h q) :
    Leaves (p ++ a :: q) := by
  have hplain : ∀ r : List (Act κ), (∀ h, ¬Touches h r) → ∀ b ∈ r, ∀ h, ¬Touches h [b] :=
    fun r hr b hb h ht => hr h (touches_of_mem hb ht)
  refine List.pairwise_append.mpr ⟨?_, List.pairwise_cons.mpr ⟨?_, ?_⟩, ?_⟩
  · refine List.pairwise_of_forall_mem_list fun b hb c _ hclash => ?_
    obtain ⟨⟨h, ht⟩, -⟩ := hclash.touches
    exact hplain p hp b hb h ht
  · intro b hb hclash
    obtain ⟨-, h, ht⟩ := hclash.touches
    exact hplain q hq b hb h ht
  · refine List.pairwise_of_forall_mem_list fun b hb c _ hclash => ?_
    obtain ⟨⟨h, ht⟩, -⟩ := hclash.touches
    exact hplain q hq b hb h ht
  · intro b hb c _ hclash
    obtain ⟨⟨h, ht⟩, -⟩ := hclash.touches
    exact hplain p hp b hb h ht

end

section

omit [DecidableEq κ]

theorem Piece.callable (hp : Piece 0 0 p) : Callable p := by
  have hscope := hp.2 [] rfl
  have hleaves := leaves_of_plain (a := .throws) hp.1 (Piece.nil 0).1
  rw [List.append_nil] at hscope
  exact ⟨hscope, (List.pairwise_append.mp hleaves).1⟩

/-- A call that leaves a reference at its end. -/
theorem Piece.callable_detach (hp : Piece 0 1 p) (h : κ) : Callable (p ++ [.detach h]) :=
  ⟨hp.2 _ ⟨Nat.one_pos, (Piece.nil 0).1 h, rfl⟩, leaves_of_plain hp.1 (Piece.nil 0).1⟩

/-- A call that works with the object of a handle. -/
theorem Piece.callable_borrow (hp : Piece 0 0 p) (hq : Piece 1 0 q) (h : κ) :
    Callable (p ++ .borrow h :: q) := by
  have hscope := hq.2 [] rfl
  rw [List.append_nil] at hscope
  exact ⟨hp.2 _ hscope, leaves_of_plain hp.1 hq.1⟩

/-- A call that gives the reference of a handle back. -/
theorem Piece.callable_release (hp : Piece 0 0 p) (hq : Piece 0 0 q) (h : κ) :
    Callable (p ++ .release h :: q) := by
  have hscope := hq.2 [] rfl
  rw [List.append_nil] at hscope
  exact ⟨hp.2 _ ⟨hq.1 h, hscope⟩, leaves_of_plain hp.1 hq.1⟩

end

end RefCount
