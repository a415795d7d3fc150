import Mathlib.Algebra.Notation.Defs
import Mathlib.Tactic.Common

/-!
# A file as one array

The contents of a file are a function from positions to entries; `patch` writes a part of it
and `window` reads one.  A write in parts is one write (`patch_patch`), and reads of adjacent
parts are one read (`window_append`).  `FlatFile` is a file with its size, all of whose entries
past the end are zero; that is a field, so a write that grows the file leaves no old entries
behind.
-/

variable {α : Type*}

/-- `f` with the `len` entries from `start` on taken from `src`. -/
def patch (f : ℕ → α) (start len : ℕ) (src : ℕ → α) : ℕ → α :=
  fun i => if start ≤ i ∧ i < start + len then src (i - start) else f i

/-- The entries `start`, …, `start + len - 1`. -/
def window (f : ℕ → α) (start len : ℕ) : List α := (List.range' start len).map f

theorem patch_empty (f : ℕ → α) (start : ℕ) (src : ℕ → α) : patch f start 0 src = f := by
  funext i
  apply if_neg
  omega

/-- Two adjacent parts are written as one. -/
theorem patch_patch (f : ℕ → α) (start m n : ℕ) (src : ℕ → α) :
    patch (patch f start m src) (start + m) n (fun i => src (m + i)) =
      patch f start (m + n) src := by
  funext i
  unfold patch
  by_cases hfirst : start ≤ i ∧ i < start + m
  · rw [if_neg (by omega), if_pos hfirst, if_pos (by omega)]
  · by_cases hsecond : start + m ≤ i ∧ i < start + m + n
    · have hat : m + (i - (start + m)) = i - start := by omega
      rw [if_pos hsecond, if_pos (by omega), ← hat]
    · rw [if_neg hsecond, if_neg hfirst, if_neg (by omega)]

theorem window_empty (f : ℕ → α) (start : ℕ) : window f start 0 = [] := rfl

/-- Two adjacent parts are read as one. -/
theorem window_append (f : ℕ → α) (start m n : ℕ) :
    window f start m ++ window f (start + m) n = window f start (m + n) := by
  rw [window, window, window, ← List.map_append, List.range'_append_1]

/-- The entries of a part, and the default behind its end. -/
theorem window_getD (f : ℕ → α) (start len p : ℕ) (d : α) :
    (window f start len).getD p d = if p < len then f (start + p) else d := by
  unfold window
  by_cases hp : p < len
  · rw [if_pos hp]
    simp [List.getD, hp]
  · rw [if_neg hp]
    simp [List.getD, hp]

/-- A file: `size` entries, and zeros after them. -/
structure FlatFile (α : Type*) [Zero α] where
  size : ℕ
  entry : ℕ → α
  beyond : ∀ i, size ≤ i → entry i = 0

namespace FlatFile

variable [Zero α]

def empty : FlatFile α := ⟨0, fun _ => 0, fun _ _ => rfl⟩

/-- Write the list at the offset; the file grows when it ends behind the old end. -/
def write (f : FlatFile α) (xs : List α) (offset : ℕ) : FlatFile α where
  size := max f.size (offset + xs.length)
  entry := patch f.entry offset xs.length fun i => xs.getD i 0
  beyond i hi := by
    have hold := f.beyond i (by omega)
    rw [patch, if_neg (by omega)]
    exact hold

/-- Read at most `size` entries from the offset, up to the end of the file. -/
def read (f : FlatFile α) (size offset : ℕ) : List α :=
  window f.entry offset (min size (f.size - offset))

end FlatFile
