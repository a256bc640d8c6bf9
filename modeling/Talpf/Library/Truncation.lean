import Mathlib.Algebra.Order.Floor.Ring
import Mathlib.Algebra.Order.AbsoluteValue.Basic
import Mathlib.Tactic.Linarith
import Mathlib.Tactic.Ring

/-!
# Truncation and rounding

The conversions between fractions and integers that programs make: a cast
truncates towards zero, the remainder of a division has the sign of the
dividend, and rounding goes away from zero halfway between two integers.
-/

namespace Truncation

universe u

variable {K : Type u} [Field K] [LinearOrder K] [FloorRing K]

def truncate (x : K) : ℤ :=
  if 0 ≤ x then ⌊x⌋ else ⌈x⌉

def fmod (x y : K) : K := x - y * truncate (x / y)

def roundAway (x : K) : ℤ :=
  if 0 ≤ x then ⌊x + 1 / 2⌋ else ⌈x - 1 / 2⌉

theorem truncate_of_nonneg {x : K} (nonneg : 0 ≤ x) : truncate x = ⌊x⌋ :=
  if_pos nonneg

variable [IsStrictOrderedRing K]

theorem truncate_of_nonpos {x : K} (nonpos : x ≤ 0) : truncate x = ⌈x⌉ := by
  rcases nonpos.eq_or_lt with rfl | negative
  · rw [truncate_of_nonneg le_rfl, Int.floor_zero, Int.ceil_zero]
  · exact if_neg (not_le.mpr negative)

theorem truncate_neg (x : K) : truncate (-x) = -truncate x := by
  rcases le_total 0 x with nonneg | nonpos
  · rw [truncate_of_nonpos (neg_nonpos.mpr nonneg), truncate_of_nonneg nonneg, Int.ceil_neg]
  · rw [truncate_of_nonneg (neg_nonneg.mpr nonpos), truncate_of_nonpos nonpos, Int.floor_neg]

theorem fmod_neg (x y : K) : fmod (-x) y = -fmod x y := by
  rw [fmod, fmod, neg_div, truncate_neg, Int.cast_neg]
  ring

theorem fmod_of_nonneg {x y : K} (nonneg : 0 ≤ x) (positive : 0 < y) :
    fmod x y = y * Int.fract (x / y) := by
  rw [fmod, truncate_of_nonneg (div_nonneg nonneg positive.le), Int.fract, mul_sub,
    mul_div_cancel₀ x positive.ne']

/-- A truncated remainder is smaller than a divisor that is an integer. -/
theorem abs_truncate_fmod_lt (x : K) {y : ℤ} (positive : 0 < y) :
    |truncate (fmod x (y : K))| < y := by
  wlog nonneg : 0 ≤ x generalizing x
  · rw [← abs_neg, ← truncate_neg, ← fmod_neg]
    exact this (-x) (neg_nonneg.mpr (not_le.mp nonneg).le)
  have castPositive : (0 : K) < y := Int.cast_pos.mpr positive
  have isFract := fmod_of_nonneg nonneg castPositive
  have remains : 0 ≤ fmod x (y : K) := by
    rw [isFract]
    exact mul_nonneg castPositive.le (Int.fract_nonneg _)
  have less : fmod x (y : K) < y := by
    rw [isFract]
    exact mul_lt_of_lt_one_right castPositive (Int.fract_lt_one _)
  rw [truncate_of_nonneg remains, abs_of_nonneg (Int.floor_nonneg.mpr remains)]
  exact Int.floor_lt.mpr less

theorem abs_roundAway_sub_le (x : K) : |(roundAway x : K) - x| ≤ 1 / 2 := by
  rw [roundAway, abs_le]
  split
  next nonneg =>
    have below := Int.floor_le (x + 1 / 2)
    have above := Int.lt_floor_add_one (x + 1 / 2)
    constructor <;> linarith
  next negative =>
    have below := Int.le_ceil (x - 1 / 2)
    have above := Int.ceil_lt_add_one (x - 1 / 2)
    constructor <;> linarith

theorem roundAway_nonneg {x : K} (nonneg : 0 ≤ x) : 0 ≤ roundAway x := by
  rw [roundAway, if_pos nonneg]
  exact Int.floor_nonneg.mpr (by linarith)

/-- Rounding reaches an integer from one half below it. -/
theorem roundAway_lt_iff {x : K} (nonneg : 0 ≤ x) {n : ℤ} : roundAway x < n ↔ x < n - 1 / 2 := by
  rw [roundAway, if_pos nonneg, Int.floor_lt, lt_sub_iff_add_lt]

end Truncation
