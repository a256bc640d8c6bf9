import Talpf.Time
import Mathlib.Data.Set.Basic
import Mathlib.Tactic.NormNum

/-!
# Times made from numbers of seconds

The fraction of a second is rounded after the whole seconds were taken.  Just
below a whole second it becomes a full second of nanoseconds.
-/

namespace Talpf

open Truncation

namespace Time

/-- The times that a program can compute from some numbers of seconds. -/
inductive Produced (given : Set ℚ) : Time → Prop
  | fromSeconds {t : ℚ} : t ∈ given → Produced given (fromSeconds t)
  | zero : Produced given zero
  | sub {a b : Time} : Produced given a → Produced given b → Produced given (a.sub b)
  | add {a b : Time} : Produced given a → Produced given b → Produced given (a.add b)
  | mul {a : Time} (factor : ℚ) : Produced given a → Produced given (a.mul factor)

/-- A number of seconds is not in the last half of a nanosecond before a whole second. -/
def Representable (t : ℚ) : Prop := oneSecond * (t - ⌊t⌋) < oneSecond - 1 / 2

theorem fraction_nonneg (t : ℚ) : 0 ≤ oneSecond * (t - ⌊t⌋) :=
  mul_nonneg (by decide) (sub_nonneg.mpr (Int.floor_le t))

theorem fromSeconds_normalised_iff (t : ℚ) : (fromSeconds t).Normalised ↔ Representable t := by
  have nonneg := fraction_nonneg t
  rw [Representable, ← roundAway_lt_iff nonneg]
  exact ⟨Normalised.less, fun less => ⟨roundAway_nonneg nonneg, less⟩⟩

/-- The conversion is accurate even when its result is not normalised. -/
theorem abs_nanoseconds_fromSeconds_sub_le (t : ℚ) :
    |((fromSeconds t).nanoseconds : ℚ) - oneSecond * t| ≤ 1 / 2 := by
  have isRounding : ((fromSeconds t).nanoseconds : ℚ) - oneSecond * t =
      (roundAway (oneSecond * (t - ⌊t⌋)) : ℚ) - oneSecond * (t - ⌊t⌋) := by
    rw [nanoseconds, fromSeconds]
    push_cast
    ring
  rw [isRounding]
  exact abs_roundAway_sub_le _

theorem mul_normalised (time : Time) (a : ℚ) : (time.mul a).Normalised := by
  have bound := abs_lt.mp (abs_truncate_fmod_lt (a * time.tvNsec) (y := oneSecond) (by decide))
  rw [mul]
  split
  next negative => constructor <;> dsimp only <;> omega
  next nonneg => exact ⟨not_lt.mp nonneg, bound.2⟩

/-- No operation leaves the normalised times. -/
theorem Produced.normalised {given : Set ℚ} (representable : ∀ t ∈ given, Representable t)
    {time : Time} (produced : Produced given time) : time.Normalised := by
  induction produced with
  | fromSeconds isGiven => exact (fromSeconds_normalised_iff _).mpr (representable _ isGiven)
  | zero => exact ⟨by decide, by decide⟩
  | sub _ _ first second => exact first.sub second
  | add _ _ first second => exact first.add second
  | mul factor _ _ => exact mul_normalised _ factor

/-- All times that a program computes from some numbers of seconds are normalised, and compare as
equal when they stand for the same number, if and only if none of these numbers is too close below
a whole second. -/
theorem produced_normalised_iff (given : Set ℚ) :
    ((∀ t ∈ given, (fromSeconds t).Normalised ∧
        |((fromSeconds t).nanoseconds : ℚ) - oneSecond * t| ≤ 1 / 2) ∧
      (∀ time, Produced given time → time.Normalised) ∧
      ∀ a b, Produced given a → Produced given b → a.nanoseconds = b.nanoseconds →
        a.equals b = true) ↔
    ∀ t ∈ given, Representable t := by
  constructor
  · rintro ⟨converted, _⟩ t isGiven
    exact (fromSeconds_normalised_iff t).mp (converted t isGiven).1
  · intro representable
    refine ⟨fun t isGiven => ⟨(fromSeconds_normalised_iff t).mpr (representable t isGiven),
      abs_nanoseconds_fromSeconds_sub_le t⟩, fun _ => Produced.normalised representable, ?_⟩
    intro a b first second
    exact ((first.normalised representable).equals_iff (second.normalised representable)).mpr

/-- A tenth of a nanosecond before one second is rounded to a full second of nanoseconds, and
differs from one second. -/
theorem fromSeconds_not_normalised :
    fromSeconds (1 - 1 / 10 ^ 10) = ⟨0, 1000000000⟩ ∧
    (fromSeconds (1 - 1 / 10 ^ 10)).equals (fromSeconds 1) = false ∧
    ¬((∀ t, (fromSeconds t).Normalised ∧
        |((fromSeconds t).nanoseconds : ℚ) - oneSecond * t| ≤ 1 / 2) ∧
      (∀ time, Produced Set.univ time → time.Normalised) ∧
      ∀ a b, Produced Set.univ a → Produced Set.univ b → a.nanoseconds = b.nanoseconds →
        a.equals b = true) := by
  have isFull : fromSeconds (1 - 1 / 10 ^ 10) = ⟨0, 1000000000⟩ := by decide +kernel
  refine ⟨isFull, by decide +kernel, ?_⟩
  rintro ⟨converted, _⟩
  have less := (converted (1 - 1 / 10 ^ 10)).1.less
  rw [isFull] at less
  exact absurd less (by decide)

end Time

end Talpf
