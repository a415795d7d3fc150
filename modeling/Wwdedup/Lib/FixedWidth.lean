import Mathlib.Algebra.Order.Ring.Int
import Mathlib.Tactic.Common

/-!
# Integers of a fixed width

`signed w` and `unsigned w` are the values that a signed or unsigned integer of `w` bits has when it
is given a number: the number itself where it fits, and otherwise the number that differs from it by
a multiple of `2 ^ w` and fits.  `sum_digits` puts a number together from its digits.
-/

namespace FixedWidth

/-- Two's complement. -/
def signed (w : ℕ) (x : ℤ) : ℤ := x.bmod (2 ^ w)

def unsigned (w : ℕ) (x : ℤ) : ℕ := (x % (2 ^ w : ℕ)).toNat

variable {w : ℕ} {x : ℤ}

theorem signed_of_fits (hlow : -(2 ^ w : ℕ) ≤ x * 2) (hhigh : x * 2 < (2 ^ w : ℕ)) :
    signed w x = x :=
  Int.bmod_eq_of_le_mul_two hlow hhigh

theorem signed_eq_zero : signed w x = 0 ↔ ((2 ^ w : ℕ) : ℤ) ∣ x :=
  Int.dvd_iff_bmod_eq_zero.symm

/-- A negative number does not become smaller. -/
theorem le_signed (h : x < 0) : x ≤ signed w x := by
  have hpos := Nat.two_pow_pos w
  unfold signed
  generalize 2 ^ w = m at hpos ⊢
  by_cases hlow : -((m : ℤ) / 2) ≤ x
  · exact Int.le_of_eq (Int.bmod_eq_of_le hlow (by omega)).symm
  · have hbound := Int.le_bmod (x := x) hpos
    omega

theorem unsigned_of_fits (hlow : 0 ≤ x) (hhigh : x < (2 ^ w : ℕ)) : (unsigned w x : ℤ) = x := by
  unfold unsigned
  rw [Int.emod_eq_of_lt hlow hhigh, Int.toNat_of_nonneg hlow]

theorem unsigned_natCast {n : ℕ} (h : n < 2 ^ w) : unsigned w n = n := by
  have hfits : (unsigned w (n : ℤ) : ℤ) = n := unsigned_of_fits (Int.natCast_nonneg n) (by omega)
  exact_mod_cast hfits

/-- The last `m` digits of a number, each at its place. -/
theorem sum_digits (b n m : ℕ) :
    ((List.range m).map fun k => n / b ^ k % b * b ^ k).sum = n % b ^ m := by
  induction m with
  | zero =>
    rw [pow_zero, Nat.mod_one]
    rfl
  | succ m ih =>
    have hlast : [n / b ^ m % b * b ^ m].sum = b ^ m * (n / b ^ m % b) := by
      rw [List.sum_singleton, Nat.mul_comm]
    rw [List.range_succ, List.map_append, List.sum_append, ih, pow_succ, Nat.mod_mul]
    exact congrArg (n % b ^ m + ·) hlast

end FixedWidth
