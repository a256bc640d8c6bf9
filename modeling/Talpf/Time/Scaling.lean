import Talpf.Time.Conversions
import Mathlib.Tactic.LinearCombination

/-!
# Scaled times

The seconds and the nanoseconds of a time are scaled separately.  The fraction
of the scaled seconds only carries into the whole seconds: it does not reach the
nanoseconds, which come from the scaled nanoseconds alone.
-/

namespace Talpf

open Truncation

namespace Time

/-- The fractions of the scaled seconds and of the scaled nanoseconds are less than a nanosecond
together, or the fraction of the seconds is completed to a second by the nanoseconds.  A negative
time has scaled nanoseconds next to a whole second, and is itself next to one. -/
def Scales (time : Time) (a : ℚ) : Prop :=
  if 0 ≤ time.tvSec then
    oneSecond * Int.fract (|a| * time.tvSec) + Int.fract (|a| * time.tvNsec) < 1 ∨
      oneSecond * (1 - Int.fract (|a| * time.tvSec)) ≤
          oneSecond * Int.fract (|a| * time.tvNsec / oneSecond) ∧
        |oneSecond * (1 - Int.fract (|a| * time.tvSec)) - Int.fract (|a| * time.tvNsec)| < 1
  else
    oneSecond * Int.fract (|a| * time.tvNsec / oneSecond) < 1 ∧
      oneSecond * Int.fract (-(|a| * time.tvSec + |a| * time.tvNsec / oneSecond)) < 1

/-- By how much a time differs from the seconds and nanoseconds it was truncated from. -/
def deviation (sec nsec : ℚ) : ℚ :=
  truncate (sec + nsec / oneSecond) * oneSecond + truncate (fmod nsec oneSecond) -
    (sec * oneSecond + nsec)

theorem nanoseconds_mul_sub (time : Time) (a : ℚ) :
    ((time.mul a).nanoseconds : ℚ) - a * time.nanoseconds =
      deviation (a * time.tvSec) (a * time.tvNsec) := by
  have isSum : (time.mul a).nanoseconds =
      truncate (a * time.tvSec + a * time.tvNsec / oneSecond) * oneSecond +
        truncate (fmod (a * time.tvNsec) (oneSecond : ℚ)) := by
    simp only [mul, nanoseconds]
    split
    next negative => ring
    next nonneg => rfl
  rw [isSum, deviation, nanoseconds]
  push_cast
  ring

theorem deviation_neg (sec nsec : ℚ) : deviation (-sec) (-nsec) = -deviation sec nsec := by
  rw [deviation, deviation, fmod_neg, neg_div, ← neg_add, truncate_neg, truncate_neg]
  push_cast
  ring

theorem abs_deviation_mul (a sec nsec : ℚ) :
    |deviation (a * sec) (a * nsec)| = |deviation (|a| * sec) (|a| * nsec)| := by
  rcases abs_choice a with same | opposite
  · rw [same]
  · rw [opposite, neg_mul, neg_mul, deviation_neg, abs_neg]

section Parts

variable {sec nsec : ℚ}

theorem oneSecond_pos : (0 : ℚ) < oneSecond := by
  norm_num [oneSecond]

/-- The whole nanoseconds below a second. -/
theorem floor_fmod (nonneg : 0 ≤ nsec) :
    truncate (fmod nsec oneSecond) = ⌊oneSecond * Int.fract (nsec / oneSecond)⌋ ∧
      oneSecond * Int.fract (nsec / oneSecond) =
        ⌊oneSecond * Int.fract (nsec / oneSecond)⌋ + Int.fract nsec := by
  have isFmod := fmod_of_nonneg nonneg oneSecond_pos
  have remains : 0 ≤ oneSecond * Int.fract (nsec / oneSecond) :=
    mul_nonneg oneSecond_pos.le (Int.fract_nonneg _)
  constructor
  · rw [isFmod, truncate_of_nonneg remains]
  · have isDifference : oneSecond * Int.fract (nsec / oneSecond) =
        nsec - (oneSecond * ⌊nsec / oneSecond⌋ : ℤ) := by
      rw [Int.fract, mul_sub, mul_div_cancel₀ nsec oneSecond_pos.ne']
      push_cast
      rfl
    rw [isDifference, Int.floor_sub_intCast, Int.fract]
    push_cast
    ring

theorem floor_fmod_lt (nonneg : 0 ≤ nsec) :
    (⌊oneSecond * Int.fract (nsec / oneSecond)⌋ : ℚ) + 1 ≤ oneSecond := by
  have bound := (abs_lt.mp (abs_truncate_fmod_lt nsec (y := oneSecond) (by decide))).2
  rw [(floor_fmod nonneg).1] at bound
  exact_mod_cast bound

theorem deviation_of_nonneg (secNonneg : 0 ≤ sec) (nonneg : 0 ≤ nsec) : deviation sec nsec =
    oneSecond * ⌊Int.fract sec + Int.fract (nsec / oneSecond)⌋ - oneSecond * Int.fract sec -
      Int.fract nsec := by
  have whole : truncate (sec + nsec / oneSecond) = ⌊sec⌋ + ⌊nsec / oneSecond⌋ +
      ⌊Int.fract sec + Int.fract (nsec / oneSecond)⌋ := by
    rw [truncate_of_nonneg (add_nonneg secNonneg (div_nonneg nonneg oneSecond_pos.le)),
      ← Int.floor_intCast_add]
    congr 1
    push_cast
    rw [Int.fract, Int.fract]
    ring
  rcases floor_fmod nonneg with ⟨isFloor, parts⟩
  rw [deviation, whole, isFloor]
  have secParts := Int.floor_add_fract sec
  have nsecParts : (oneSecond : ℚ) * Int.fract (nsec / oneSecond) =
      nsec - oneSecond * ⌊nsec / oneSecond⌋ := by
    rw [Int.fract, mul_sub, mul_div_cancel₀ nsec oneSecond_pos.ne']
  push_cast
  linear_combination oneSecond * secParts + nsecParts - parts

theorem deviation_of_nonpos (nonpos : sec + nsec / oneSecond ≤ 0) (nonneg : 0 ≤ nsec) :
    deviation sec nsec = oneSecond * Int.fract (-(sec + nsec / oneSecond)) +
      ⌊oneSecond * Int.fract (nsec / oneSecond)⌋ := by
  rw [deviation, (floor_fmod nonneg).1, truncate_of_nonpos nonpos,
    Int.fract.eq_1 (-(sec + nsec / oneSecond)), Int.floor_neg]
  have cancels : (oneSecond : ℚ) * (nsec / oneSecond) = nsec :=
    mul_div_cancel₀ nsec oneSecond_pos.ne'
  push_cast
  linear_combination cancels

/-- The fractions either stay together below a second or complete one. -/
theorem abs_deviation_lt_iff_of_nonneg (secNonneg : 0 ≤ sec) (nonneg : 0 ≤ nsec) :
    |deviation sec nsec| < 1 ↔
      oneSecond * Int.fract sec + Int.fract nsec < 1 ∨
        oneSecond * (1 - Int.fract sec) ≤ oneSecond * Int.fract (nsec / oneSecond) ∧
          |oneSecond * (1 - Int.fract sec) - Int.fract nsec| < 1 := by
  have less := floor_fmod_lt nonneg
  rcases floor_fmod nonneg with ⟨_, parts⟩
  have secFract := Int.fract_nonneg sec
  have nsecFract := Int.fract_nonneg nsec
  have scaled := mul_nonneg oneSecond_pos.le secFract
  rcases lt_or_ge (Int.fract sec + Int.fract (nsec / oneSecond)) 1 with together | completes
  · have isZero : ⌊Int.fract sec + Int.fract (nsec / oneSecond)⌋ = 0 :=
      Int.floor_eq_zero_iff.mpr ⟨add_nonneg secFract (Int.fract_nonneg _), together⟩
    have below : (oneSecond : ℚ) * (Int.fract sec + Int.fract (nsec / oneSecond)) < oneSecond :=
      mul_lt_of_lt_one_right oneSecond_pos together
    rw [deviation_of_nonneg secNonneg nonneg, isZero, Int.cast_zero, mul_zero, zero_sub, ← neg_add',
      abs_neg, abs_of_nonneg (add_nonneg scaled nsecFract)]
    refine (or_iff_left ?_).symm
    rintro ⟨above, _⟩
    linarith
  · have isOne : ⌊Int.fract sec + Int.fract (nsec / oneSecond)⌋ = 1 := by
      rw [Int.floor_eq_iff]
      have := Int.fract_lt_one sec
      have := Int.fract_lt_one (nsec / oneSecond)
      constructor <;> push_cast <;> linarith
    have above : (oneSecond : ℚ) ≤
        oneSecond * (Int.fract sec + Int.fract (nsec / oneSecond)) :=
      le_mul_of_one_le_right oneSecond_pos.le completes
    rw [deviation_of_nonneg secNonneg nonneg, isOne, Int.cast_one, mul_one, ← mul_one_sub]
    constructor
    · intro close
      exact .inr ⟨by linarith, close⟩
    · rintro (small | ⟨_, close⟩)
      · linarith
      · exact close

theorem abs_deviation_lt_iff_of_nonpos (nonpos : sec + nsec / oneSecond ≤ 0) (nonneg : 0 ≤ nsec) :
    |deviation sec nsec| < 1 ↔ oneSecond * Int.fract (nsec / oneSecond) < 1 ∧
      oneSecond * Int.fract (-(sec + nsec / oneSecond)) < 1 := by
  have remains : 0 ≤ oneSecond * Int.fract (nsec / oneSecond) :=
    mul_nonneg oneSecond_pos.le (Int.fract_nonneg _)
  have fraction : 0 ≤ oneSecond * Int.fract (-(sec + nsec / oneSecond)) :=
    mul_nonneg oneSecond_pos.le (Int.fract_nonneg _)
  have whole : 0 ≤ ⌊oneSecond * Int.fract (nsec / oneSecond)⌋ := Int.floor_nonneg.mpr remains
  have wholeCast : (0 : ℚ) ≤ ⌊oneSecond * Int.fract (nsec / oneSecond)⌋ := Int.cast_nonneg whole
  rw [deviation_of_nonpos nonpos nonneg, abs_of_nonneg (add_nonneg fraction wholeCast)]
  constructor
  · intro close
    refine ⟨?_, by linarith⟩
    have isZero : ⌊oneSecond * Int.fract (nsec / oneSecond)⌋ < 1 := by
      exact_mod_cast lt_of_le_of_lt (le_add_of_nonneg_left fraction) close
    exact Int.floor_lt.mp isZero |>.trans_eq Int.cast_one
  · rintro ⟨small, close⟩
    rw [Int.floor_eq_zero_iff.mpr ⟨remains, small⟩, Int.cast_zero, add_zero]
    exact close

end Parts

/-- A scaled time is always normalised, and is accurate if and only if the fractions are small. -/
theorem mul_accurate_iff {time : Time} (normalised : time.Normalised) (a : ℚ) :
    (time.mul a).Normalised ∧ |((time.mul a).nanoseconds : ℚ) - a * time.nanoseconds| < 1 ↔
      time.Scales a := by
  rw [and_iff_right (mul_normalised time a), nanoseconds_mul_sub, abs_deviation_mul, Scales]
  have nsecNonneg : 0 ≤ |a| * time.tvNsec :=
    mul_nonneg (abs_nonneg a) (Int.cast_nonneg normalised.nonneg)
  split
  next secNonneg =>
    exact abs_deviation_lt_iff_of_nonneg (mul_nonneg (abs_nonneg a) (Int.cast_nonneg secNonneg))
      nsecNonneg
  next negative =>
    apply abs_deviation_lt_iff_of_nonpos _ nsecNonneg
    have below : (time.tvSec : ℚ) + time.tvNsec / oneSecond ≤ 0 := by
      have secBelow : (time.tvSec : ℚ) ≤ -1 := by
        have whole : time.tvSec ≤ -1 := by omega
        exact_mod_cast whole
      have nsecBelow : (time.tvNsec : ℚ) / oneSecond < 1 :=
        (div_lt_one oneSecond_pos).mpr (Int.cast_lt.mpr normalised.less)
      linarith
    calc |a| * time.tvSec + |a| * time.tvNsec / oneSecond
        = |a| * (time.tvSec + time.tvNsec / oneSecond) := by ring
      _ ≤ 0 := mul_nonpos_of_nonneg_of_nonpos (abs_nonneg a) below

/-- An integral factor is right for the times that are not negative. -/
theorem scales_intCast {time : Time} (nonneg : 0 ≤ time.tvSec) (factor : ℤ) :
    time.Scales factor := by
  rw [Scales, if_pos nonneg, ← Int.cast_abs, ← Int.cast_mul, ← Int.cast_mul, Int.fract_intCast,
    Int.fract_intCast, mul_zero, zero_add]
  exact .inl one_pos

theorem mul_accurate_minus_two :
    ((⟨1, 600000000⟩ : Time).mul (-2 : ℤ)).Normalised ∧
      |(((⟨1, 600000000⟩ : Time).mul (-2 : ℤ)).nanoseconds : ℚ) -
        (-2 : ℤ) * (⟨1, 600000000⟩ : Time).nanoseconds| < 1 :=
  (mul_accurate_iff ⟨by decide, by decide⟩ _).mpr (scales_intCast (by decide) (-2))

/-- Half of one second is nothing, and minus half a second times one is half a second. -/
theorem mul_not_accurate :
    (⟨1, 0⟩ : Time).mul (1 / 2) = ⟨0, 0⟩ ∧
    (⟨-1, 500000000⟩ : Time).mul 1 = ⟨0, 500000000⟩ ∧
    ¬∀ (time : Time) (a : ℚ), time.Normalised →
      (time.mul a).Normalised ∧ |((time.mul a).nanoseconds : ℚ) - a * time.nanoseconds| < 1 := by
  have isZero : (⟨1, 0⟩ : Time).mul (1 / 2) = ⟨0, 0⟩ := by decide +kernel
  refine ⟨isZero, by decide +kernel, ?_⟩
  intro accurate
  have close := (accurate ⟨1, 0⟩ (1 / 2) ⟨by decide, by decide⟩).2
  rw [isZero] at close
  exact absurd close (by norm_num [nanoseconds, oneSecond])

end Time

end Talpf
