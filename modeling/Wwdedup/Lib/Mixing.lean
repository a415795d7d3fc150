import Mathlib.Data.BitVec
import Mathlib.Data.Fintype.EquivFin
import Mathlib.Tactic.Common

/-!
# Mixing keys into a state

A hash absorbs one key after another into a state.  `Latin` says of one such step that it is a
bijection in the state for each key and in the key for each state.

* `absorb_bijective`: for fixed keys the result is a bijection of the state it starts in.
* `absorb_set_bijective`: it is a bijection of each key when the other keys are fixed.

The second part is about the words such steps are made of: rotations, products with a unit and
xors with a shifted copy lose nothing.  The third reads words out of bytes, the lowest first.
-/

namespace Mixing

section absorbing

variable {σ κ : Type*}

/-- A step that neither forgets the state nor the key. -/
structure Latin (step : κ → σ → σ) : Prop where
  state : ∀ k, Function.Bijective (step k)
  key : ∀ x, Function.Bijective fun k => step k x

/-- The state after a list of keys. -/
def absorb (step : κ → σ → σ) (x : σ) (ks : List κ) : σ := ks.foldl (fun x k => step k x) x

variable {step : κ → σ → σ} {ks : List κ} {i : ℕ}

@[simp] theorem absorb_nil (x : σ) : absorb step x [] = x := rfl

@[simp] theorem absorb_cons (x : σ) (k : κ) (ks : List κ) :
    absorb step x (k :: ks) = absorb step (step k x) ks := rfl

theorem absorb_bijective (h : Latin step) (ks : List κ) :
    Function.Bijective fun x => absorb step x ks := by
  induction ks with
  | nil => exact Function.bijective_id
  | cons k ks ih => exact ih.comp (h.state k)

/-- **Each key is told apart**, whatever the others are. -/
theorem absorb_set_bijective (h : Latin step) (x : σ) (hi : i < ks.length) :
    Function.Bijective fun k => absorb step x (ks.set i k) := by
  induction ks generalizing i x with
  | nil => exact absurd hi (Nat.not_lt_zero i)
  | cons k₀ ks ih =>
    cases i with
    | zero =>
      show Function.Bijective fun k => absorb step (step k x) ks
      exact (absorb_bijective h ks).comp (h.key x)
    | succ i =>
      show Function.Bijective fun k => absorb step (step k₀ x) (ks.set i k)
      exact ih (step k₀ x) (Nat.lt_of_succ_lt_succ hi)

end absorbing

/-! ### Words -/

section words

variable {w : ℕ}

instance finite_bitVec : Finite (BitVec w) := Finite.of_equiv _ BitVec.equivFin.toEquiv.symm

/-- A rotation to the left by `r` bits. -/
def rotl (x : BitVec w) (r : ℕ) : BitVec w := x <<< r ||| x >>> (w - r)

/-- A rotation moves every bit to a place of its own. -/
theorem getLsbD_rotl (x : BitVec w) {r i : ℕ} (hr : r ≤ w) (hi : i < w) :
    (rotl x r).getLsbD (if i + r < w then i + r else i + r - w) = x.getLsbD i := by
  unfold rotl
  rw [BitVec.getLsbD_or, BitVec.getLsbD_shiftLeft, BitVec.getLsbD_ushiftRight]
  split
  · rename_i hlow
    have hgone : x.getLsbD (w - r + (i + r)) = false := BitVec.getLsbD_of_ge _ _ (by omega)
    simp [hlow, hgone]
  · rename_i hhigh
    have hback : w - r + (i + r - w) = i := by omega
    have hshift : i + r - w < r := by omega
    simp [hback, hshift]

theorem rotl_bijective {r : ℕ} (hr : r ≤ w) : Function.Bijective fun x : BitVec w => rotl x r := by
  refine Finite.injective_iff_bijective.mp fun x y heq => ?_
  apply BitVec.eq_of_getLsbD_eq
  intro i hi
  rw [← getLsbD_rotl x hr hi, ← getLsbD_rotl y hr hi]
  exact congrArg (fun z : BitVec w => z.getLsbD _) heq

/-- A product with a unit. -/
theorem mul_bijective (c c' : BitVec w) (hunit : c * c' = 1) :
    Function.Bijective fun x : BitVec w => x * c := by
  refine Function.bijective_iff_has_inverse.mpr ⟨fun y => y * c', fun x => ?_, fun y => ?_⟩
  · show x * c * c' = x
    rw [mul_assoc, hunit, mul_one]
  · show y * c' * c = y
    rw [mul_assoc, mul_comm c', hunit, mul_one]

/-- An xor with a copy that is shifted to the right: the high bits stay, and with them known the
next ones are. -/
theorem xorshift_bijective {r : ℕ} (hr : 0 < r) :
    Function.Bijective fun x : BitVec w => x ^^^ x >>> r := by
  refine Finite.injective_iff_bijective.mp fun x y heq => ?_
  have hbit : ∀ n i, w ≤ i + n → x.getLsbD i = y.getLsbD i := by
    intro n
    induction n with
    | zero =>
      intro i hi
      rw [BitVec.getLsbD_of_ge x i hi, BitVec.getLsbD_of_ge y i hi]
    | succ n ih =>
      intro i hi
      have hxor := congrArg (fun z : BitVec w => z.getLsbD i) heq
      simp only [BitVec.getLsbD_xor, BitVec.getLsbD_ushiftRight] at hxor
      rw [ih (r + i) (by omega)] at hxor
      exact Bool.xor_left_inj.mp hxor
  exact BitVec.eq_of_getLsbD_eq fun i hi => hbit w i (by omega)

end words

/-! ### Bytes -/

section bytes

variable {w n : ℕ} {b b' : ℕ → UInt8}

/-- Puts `n` bytes into a word by xor, byte `j` at bit `8 * j`, the highest one first. -/
def xorBytes (b : ℕ → UInt8) : ℕ → BitVec w → BitVec w
  | 0, k => k
  | n + 1, k => xorBytes b n (k ^^^ (b n).toBitVec.setWidth w <<< (8 * n))

theorem getLsbD_xorBytes (b : ℕ → UInt8) (hn : 8 * n ≤ w) (k : BitVec w) (i : ℕ) :
    (xorBytes b n k).getLsbD i =
      (k.getLsbD i ^^ (decide (i < 8 * n) && (b (i / 8)).toBitVec.getLsbD (i % 8))) := by
  induction n generalizing k with
  | zero => simp [xorBytes]
  | succ n ih =>
    show (xorBytes b n _).getLsbD i = _
    rw [ih (by omega), BitVec.getLsbD_xor, BitVec.getLsbD_shiftLeft, BitVec.getLsbD_setWidth]
    by_cases hlow : i < 8 * n
    · have hin : i < 8 * (n + 1) := by omega
      simp [hlow, hin]
    · by_cases hin : i < 8 * (n + 1)
      · have hquot : i / 8 = n := by omega
        have hrem : i % 8 = i - 8 * n := by omega
        have hw : i < w := by omega
        have hw' : i - 8 * n < w := by omega
        simp [hlow, hin, hquot, hrem, hw, hw']
      · have hgone : (b n).toBitVec.getLsbD (i - 8 * n) = false :=
          BitVec.getLsbD_of_ge _ _ (by omega)
        simp [hlow, hin, hgone]

/-- The bytes that are put into a word can be read back. -/
theorem xorBytes_injective (hn : 8 * n ≤ w) {k : BitVec w}
    (heq : xorBytes b n k = xorBytes b' n k) : ∀ j < n, b j = b' j := by
  intro j hj
  apply UInt8.toBitVec_inj.mp
  apply BitVec.eq_of_getLsbD_eq
  intro i hi
  have hbit := congrArg (fun z : BitVec w => z.getLsbD (8 * j + i)) heq
  have hin : 8 * j + i < 8 * n := by omega
  have hquot : (8 * j + i) / 8 = j := by omega
  have hrem : (8 * j + i) % 8 = i := by omega
  simp only [getLsbD_xorBytes _ hn, hin, hquot, hrem, decide_true, Bool.true_and] at hbit
  exact Bool.xor_right_inj.mp hbit

theorem xorBytes_congr (h : ∀ j < n, b j = b' j) (k : BitVec w) :
    xorBytes b n k = xorBytes b' n k := by
  induction n generalizing k with
  | zero => rfl
  | succ n ih =>
    show xorBytes b n _ = xorBytes b' n _
    rw [h n (Nat.lt_succ_self n)]
    exact ih (fun j hj => h j (Nat.lt_succ_of_lt hj)) _

/-- Byte `j` of a word. -/
def byteAt (k : BitVec w) (j : ℕ) : UInt8 := ⟨(k >>> (8 * j)).setWidth 8⟩

/-- A word is made of its bytes. -/
theorem xorBytes_byteAt (k : BitVec (8 * n)) : xorBytes (byteAt k) n 0 = k := by
  apply BitVec.eq_of_getLsbD_eq
  intro i hi
  have hrem : i % 8 < 8 := Nat.mod_lt i (by decide)
  have hsplit : 8 * (i / 8) + i % 8 = i := Nat.div_add_mod i 8
  rw [getLsbD_xorBytes _ (Nat.le_refl _)]
  show ((0 : BitVec (8 * n)).getLsbD i ^^
    (decide (i < 8 * n) && ((k >>> (8 * (i / 8))).setWidth 8).getLsbD (i % 8))) = _
  rw [BitVec.getLsbD_setWidth, BitVec.getLsbD_ushiftRight, hsplit]
  simp [hi, hrem]

end bytes

end Mixing
