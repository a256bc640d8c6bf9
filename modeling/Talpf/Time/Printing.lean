import Talpf.Time
import Talpf.Library.Decimal
import Mathlib.Tactic.FieldSimp
import Mathlib.Tactic.NormNum

/-!
# Printed times

A negative time is turned into whole seconds towards zero and the nanoseconds
that remain.  A time above minus one second then loses its sign, and a time of
whole seconds has a full second of nanoseconds, which takes ten digits.
-/

namespace Talpf

open Decimal

namespace Time

/-- The assertion that the nanoseconds are not negative holds for normalised times. -/
def output (time : Time) : List Char :=
  let (sec, nsec) :=
    if time.tvSec < 0 then (time.tvSec + 1, oneSecond - time.tvNsec)
    else (time.tvSec, time.tvNsec)
  print sec ++ '.' :: printPadded 9 nsec

/-- The number of seconds that a text with nine fractional digits stands for. -/
def reads (text : List Char) : Option ℚ :=
  (Decimal.read 9 text).map fun units : ℤ => (units : ℚ) / 10 ^ 9

def seconds (time : Time) : ℚ := time.tvSec + time.tvNsec / 10 ^ 9

/-- A time is not negative, or at least a second away from zero and not of whole seconds. -/
def Printable (time : Time) : Prop :=
  0 ≤ time.tvSec ∨ time.tvSec ≤ -2 ∧ time.tvNsec ≠ 0

theorem seconds_eq (time : Time) : time.seconds = (time.nanoseconds : ℚ) / 10 ^ 9 := by
  rw [seconds, nanoseconds, oneSecond]
  push_cast
  field_simp
  norm_num

theorem reads_eq_seconds_iff (time : Time) (text : List Char) :
    reads text = some time.seconds ↔ Decimal.read 9 text = some time.nanoseconds := by
  rw [reads, seconds_eq, Option.map_eq_some_iff]
  constructor
  · rintro ⟨units, isRead, same⟩
    have same : (units : ℚ) = time.nanoseconds := by
      simpa [div_left_inj'] using same
    rw [isRead, Int.cast_inj.mp same]
  · intro isRead
    exact ⟨_, isRead, rfl⟩

section Output

variable {time : Time}

theorem read_output_of_nonneg (normalised : time.Normalised) (nonneg : 0 ≤ time.tvSec) :
    Decimal.read 9 time.output = some time.nanoseconds := by
  rcases normalised with ⟨nsecNonneg, less⟩
  rcases Int.eq_ofNat_of_zero_le nsecNonneg with ⟨nsec, isNsec⟩
  rw [output, if_neg (not_lt.mpr nonneg)]
  dsimp only
  rw [isNsec, read_print (by decide), if_neg (not_lt.mpr nonneg), if_pos, nanoseconds, isNsec]
  · rfl
  · rw [oneSecond] at less
    omega

/-- What is read from a negative time, unless the fraction is a full second. -/
theorem read_output_of_neg (normalised : time.Normalised) (negative : time.tvSec < 0) :
    Decimal.read 9 time.output =
      if time.tvNsec = 0 then none
      else if time.tvSec = -1 then some (oneSecond - time.tvNsec)
      else some time.nanoseconds := by
  rcases normalised with ⟨nsecNonneg, less⟩
  have remains : 0 ≤ oneSecond - time.tvNsec := by omega
  rcases Int.eq_ofNat_of_zero_le remains with ⟨nsec, isNsec⟩
  rw [output, if_pos negative]
  dsimp only
  rw [isNsec, read_print (by decide)]
  rw [oneSecond] at isNsec less
  rcases eq_or_ne time.tvNsec 0 with zero | nonzero
  · rw [if_neg (by omega), if_pos zero]
  · rw [if_pos (by omega), if_neg nonzero]
    split_ifs
    next below half => omega
    next below above =>
      rw [nanoseconds, oneSecond]
      congr 1
      omega
    next above half =>
      congr 1
      omega
    next above other => omega

/-- A time is read back as it was if and only if it keeps its sign and its nine digits. -/
theorem read_output_iff (normalised : time.Normalised) :
    Decimal.read 9 time.output = some time.nanoseconds ↔ time.Printable := by
  rcases lt_or_ge time.tvSec 0 with negative | nonneg
  · rw [read_output_of_neg normalised negative, Printable, or_iff_right (not_le.mpr negative)]
    split_ifs
    next zero => simp [zero]
    next nonzero half =>
      rcases normalised with ⟨_, less⟩
      rw [oneSecond] at less
      rw [Option.some_inj, nanoseconds, oneSecond, half]
      refine iff_of_false (fun same => ?_) (fun below => absurd below.1 (by decide))
      omega
    next nonzero below => exact iff_of_true rfl ⟨by omega, nonzero⟩
  · exact iff_of_true (read_output_of_nonneg normalised nonneg) (.inl nonneg)

theorem head_output_iff (printable : time.Printable) :
    time.output.head? = some '-' ↔ time.tvSec < 0 := by
  rw [output, head_print_eq_iff]
  rcases printable with nonneg | ⟨below, _⟩
  · rw [if_neg (not_lt.mpr nonneg)]
  · rw [if_pos (by omega)]
    constructor <;> intro negative <;> omega

end Output

/-- A time is printed faithfully if and only if it is not negative, or at least a second away from
zero and not of whole seconds.  Such times are printed differently. -/
theorem output_faithful_iff (time : Time) (normalised : time.Normalised) :
    (reads time.output = some time.seconds ∧ (time.tvSec < 0 → time.output.head? = some '-') ↔
      time.Printable) ∧
    ∀ time' : Time, time'.Normalised → time.Printable → time'.Printable →
      time.output = time'.output → time = time' := by
  constructor
  · rw [reads_eq_seconds_iff, read_output_iff normalised]
    exact and_iff_left_of_imp fun printable => (head_output_iff printable).mpr
  · intro time' normalised' printable printable' same
    have first := (read_output_iff normalised).mpr printable
    rw [same, (read_output_iff normalised').mpr printable'] at first
    exact (normalised.eq_iff normalised').mpr (Option.some.inj first).symm

theorem output_faithful_negative :
    reads (output ⟨-3, 250000000⟩) = some (seconds ⟨-3, 250000000⟩) :=
  ((output_faithful_iff ⟨-3, 250000000⟩ ⟨by decide, by decide⟩).1.mpr
    (.inr ⟨by decide, by decide⟩)).1

/-- Minus half a second is printed like half a second, and minus one second with ten digits. -/
theorem output_not_faithful :
    output ⟨-1, 500000000⟩ = output ⟨0, 500000000⟩ ∧
    output ⟨-1, 0⟩ = "0.1000000000".toList ∧
    ¬((∀ time : Time, time.Normalised → reads time.output = some time.seconds) ∧
      (∀ time time' : Time, time.Normalised → time'.Normalised → time.output = time'.output →
        time = time') ∧
      ∀ time : Time, time.Normalised → time.tvSec < 0 → time.output.head? = some '-') := by
  have same : output ⟨-1, 500000000⟩ = output ⟨0, 500000000⟩ := by decide
  refine ⟨same, by decide, ?_⟩
  rintro ⟨_, differ, _⟩
  have equal := differ _ _ ⟨by decide, by decide⟩ ⟨by decide, by decide⟩ same
  exact absurd equal (by decide)

end Time

end Talpf
