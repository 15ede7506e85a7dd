import Mathlib.Algebra.Order.Ring.Int
import Mathlib.Tactic.Positivity
import Mathlib.Tactic.Ring

/-!
# Signed machine integers

A signed integer of `w` bits is an `Int` in `InRange w`. `wrap` brings the result of an operation back into the range, `clamp` takes
the nearest number of the range. Neither changes a number that is in the range (`wrap_eq_self_iff`, `clamp_of_le`).
-/

namespace ZfsTest

/-- The greatest signed integer of `w` bits. -/
def maxSigned (w : Nat) : Int := 2 ^ (w - 1) - 1

/-- The least signed integer of `w` bits. -/
def minSigned (w : Nat) : Int := -2 ^ (w - 1)

def InRange (w : Nat) (x : Int) : Prop := minSigned w ≤ x ∧ x ≤ maxSigned w

instance (w : Nat) (x : Int) : Decidable (InRange w x) := inferInstanceAs (Decidable (_ ∧ _))

/-- The number of `w` bits that differs from `x` by a multiple of `2 ^ w`. -/
def wrap (w : Nat) (x : Int) : Int := x.bmod (2 ^ w)

/-- A number that is not negative, cut off at the greatest signed integer. -/
def clamp (w : Nat) (n : Nat) : Int := min (n : Int) (maxSigned w)

variable {w : Nat} {x y : Int}

theorem two_pow_eq (hw : 0 < w) : ((2 ^ w : Nat) : Int) = 2 * 2 ^ (w - 1) := by
  obtain ⟨v, rfl⟩ := Nat.exists_eq_add_of_lt hw
  push_cast
  rw [Nat.zero_add]
  ring

/-- The bounds, as powers of natural numbers. -/
theorem maxSigned_add_one (w : Nat) : maxSigned w + 1 = ((2 ^ (w - 1) : Nat) : Int) := by
  rw [Nat.cast_pow]
  exact Int.sub_add_cancel _ _

theorem minSigned_eq (w : Nat) : minSigned w = -((2 ^ (w - 1) : Nat) : Int) := by
  rw [Nat.cast_pow]
  rfl

theorem maxSigned_nonneg (w : Nat) : 0 ≤ maxSigned w := by
  have h : (0 : Int) < 2 ^ (w - 1) := by positivity
  unfold maxSigned
  omega

theorem wrap_of_inRange (hw : 0 < w) (h : InRange w x) : wrap w x = x := by
  have hp := two_pow_eq hw
  obtain ⟨hlo, hhi⟩ := h
  unfold minSigned at hlo
  unfold maxSigned at hhi
  unfold wrap
  generalize hq : (2 : Int) ^ (w - 1) = q at hlo hhi hp
  exact Int.bmod_eq_of_le (by omega) (by omega)

theorem inRange_wrap (hw : 0 < w) (x : Int) : InRange w (wrap w x) := by
  have hp := two_pow_eq hw
  have hpos : 0 < 2 ^ w := Nat.pow_pos (by decide)
  have hlo := Int.le_bmod (x := x) hpos
  have hhi := Int.bmod_lt (x := x) hpos
  unfold InRange minSigned maxSigned wrap
  generalize (2 : Int) ^ (w - 1) = q at hp ⊢
  omega

theorem wrap_eq_self_iff (hw : 0 < w) : wrap w x = x ↔ InRange w x := by
  constructor
  · intro h
    rw [← h]
    exact inRange_wrap hw x
  · exact wrap_of_inRange hw

/-- A number that is not negative does not get greater. -/
theorem wrap_le_self (h : 0 ≤ x) : wrap w x ≤ x := by
  have hquot := mul_nonneg (Int.natCast_nonneg (2 ^ w)) (Int.ediv_nonneg h (Int.natCast_nonneg (2 ^ w)))
  have hmod := Int.mul_ediv_add_emod x (2 ^ w : Nat)
  unfold wrap Int.bmod
  dsimp only
  split <;> omega

theorem wrap_eq_wrap_iff : wrap w x = wrap w y ↔ x % (2 ^ w : Nat) = y % (2 ^ w : Nat) := by
  unfold wrap
  constructor
  · intro h
    rw [← Int.bmod_emod, h, Int.bmod_emod]
  · intro h
    rw [← Int.emod_bmod, h, Int.emod_bmod]

/-- A sum of wrapped numbers is the wrapped sum. -/
theorem wrap_wrap_add (w : Nat) (x y : Int) : wrap w (wrap w x + y) = wrap w (x + y) := Int.bmod_add_bmod

theorem wrap_add_wrap (w : Nat) (x y : Int) : wrap w (x + wrap w y) = wrap w (x + y) := Int.add_bmod_bmod

theorem inRange_of_nonneg (h₀ : 0 ≤ x) (h : x ≤ maxSigned w) : InRange w x := by
  refine ⟨?_, h⟩
  have hp : (0 : Int) < 2 ^ (w - 1) := by positivity
  unfold minSigned
  omega

theorem clamp_of_le {n : Nat} (h : (n : Int) ≤ maxSigned w) : clamp w n = n := min_eq_left h

theorem clamp_of_lt {n : Nat} (h : maxSigned w < n) : clamp w n = maxSigned w := min_eq_right (Int.le_of_lt h)

@[simp] theorem clamp_zero (w : Nat) : clamp w 0 = 0 := clamp_of_le (maxSigned_nonneg w)

end ZfsTest
