import Mathlib.Data.List.Basic

/-!
# Tables that hand out the lowest free slot

A table of numbered slots, as a process keeps one for its file descriptors: `alloc` puts a
value into the lowest slot that is free and returns its number, `release` frees a slot.  A slot
that was freed is handed out again, so a number that outlives its slot may come to name
another value.
-/

/-- The slots from 0 on; all slots behind the list are free. -/
abbrev SlotTable (α : Type*) := List (Option α)

namespace SlotTable

variable {α : Type*}

/-- What the slot holds. -/
def get (t : SlotTable α) (n : ℕ) : Option α := t[n]?.join

/-- The lowest free slot. -/
def lowest (t : SlotTable α) : ℕ := t.findIdx Option.isNone

/-- The table with the value in the lowest free slot. -/
def alloc (t : SlotTable α) (a : α) : SlotTable α :=
  if t.lowest < t.length then t.set t.lowest (some a) else t ++ [some a]

/-- The table with the slot free. -/
def release (t : SlotTable α) (n : ℕ) : SlotTable α := t.set n none

theorem lowest_le (t : SlotTable α) : t.lowest ≤ t.length := List.findIdx_le_length

/-- The slot that `alloc` takes was free. -/
theorem get_lowest (t : SlotTable α) : t.get t.lowest = none := by
  unfold get
  by_cases h : t.lowest < t.length
  · have hnone : t[t.lowest].isNone = true := List.findIdx_getElem (p := Option.isNone) (w := h)
    rw [List.getElem?_eq_getElem h, Option.isNone_iff_eq_none.mp hnone]
    rfl
  · rw [List.getElem?_eq_none (by omega)]
    rfl

theorem get_alloc (t : SlotTable α) (a : α) (n : ℕ) :
    (t.alloc a).get n = if n = t.lowest then some a else t.get n := by
  unfold alloc get
  by_cases h : t.lowest < t.length
  · rw [if_pos h, List.getElem?_set]
    by_cases hn : n = t.lowest
    · simp [hn, h]
    · rw [if_neg (Ne.symm hn), if_neg hn]
  · have hlen : t.lowest = t.length := by
      have := lowest_le t
      omega
    rw [if_neg h, hlen, List.getElem?_append]
    by_cases hn : n = t.length
    · simp [hn]
    · by_cases hlt : n < t.length
      · rw [if_pos hlt, if_neg hn]
      · rw [if_neg hlt, if_neg hn, List.getElem?_eq_none (by simp; omega),
          List.getElem?_eq_none (by omega)]

theorem get_release (t : SlotTable α) (n k : ℕ) :
    (t.release n).get k = if k = n then none else t.get k := by
  unfold release get
  rw [List.getElem?_set]
  by_cases hk : k = n
  · subst hk
    by_cases hlt : k < t.length <;> simp [hlt]
  · rw [if_neg (Ne.symm hk), if_neg hk]

/-- What a slot holds stays there while other values come in. -/
theorem get_alloc_of_some {t : SlotTable α} {a b : α} {n : ℕ} (h : t.get n = some b) :
    (t.alloc a).get n = some b := by
  rw [get_alloc, if_neg, h]
  rintro rfl
  rw [get_lowest] at h
  cases h

end SlotTable
