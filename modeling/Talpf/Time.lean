import Talpf.Library.Truncation
import Mathlib.Data.Rat.Floor

/-!
# Points in time

A time consists of seconds, which may be negative, and of nanoseconds, which are
counted forward from them.  Seconds are unbounded and fractions are exact here,
where the program has a machine integer and floating-point numbers.
-/

namespace Talpf

open Truncation

structure Time where
  tvSec : ℤ
  tvNsec : ℤ
deriving DecidableEq, Repr

namespace Time

def oneSecond : ℤ := 1000000000

def fromSeconds (t : ℚ) : Time where
  tvSec := ⌊t⌋
  tvNsec := roundAway (oneSecond * (t - ⌊t⌋))

def zero : Time where
  tvSec := 0
  tvNsec := 0

/-- `operator-=` -/
def sub (time x : Time) : Time :=
  let tvSec := time.tvSec - x.tvSec
  if time.tvNsec < x.tvNsec then ⟨tvSec - 1, oneSecond - x.tvNsec + time.tvNsec⟩
  else ⟨tvSec, time.tvNsec - x.tvNsec⟩

/-- `operator+=` -/
def add (time x : Time) : Time :=
  let tvSec := time.tvSec + x.tvSec
  if oneSecond - x.tvNsec ≤ time.tvNsec then ⟨tvSec + 1, time.tvNsec + x.tvNsec - oneSecond⟩
  else ⟨tvSec, time.tvNsec + x.tvNsec⟩

/-- `operator*=` -/
def mul (time : Time) (a : ℚ) : Time :=
  let nsec := a * time.tvNsec
  let tvNsec := truncate (fmod nsec oneSecond)
  let tvSec := truncate (a * time.tvSec + nsec / oneSecond)
  if tvNsec < 0 then ⟨tvSec - 1, tvNsec + oneSecond⟩ else ⟨tvSec, tvNsec⟩

def equals (time x : Time) : Bool :=
  time.tvSec == x.tvSec && time.tvNsec == x.tvNsec

def lessThan (time x : Time) : Bool :=
  if x.tvSec < time.tvSec then false
  else if time.tvSec = x.tvSec ∧ x.tvNsec ≤ time.tvNsec then false
  else true

/-- The number that a time stands for. -/
def nanoseconds (time : Time) : ℤ := time.tvSec * oneSecond + time.tvNsec

structure Normalised (time : Time) : Prop where
  nonneg : 0 ≤ time.tvNsec
  less : time.tvNsec < oneSecond

/-- A normalised time is known by its number. -/
theorem Normalised.eq_iff {a b : Time} (first : a.Normalised) (second : b.Normalised) :
    a = b ↔ a.nanoseconds = b.nanoseconds := by
  constructor
  · exact congrArg nanoseconds
  · intro same
    rcases first with ⟨nonneg, less⟩
    rcases second with ⟨nonneg', less'⟩
    cases a
    cases b
    simp only [nanoseconds, oneSecond, mk.injEq] at *
    omega

section Arithmetic

variable {a b c : Time}

theorem equals_iff : a.equals b = true ↔ a = b := by
  cases a
  cases b
  simp [equals]

theorem nanoseconds_sub (a b : Time) :
    (a.sub b).nanoseconds = a.nanoseconds - b.nanoseconds := by
  simp only [sub, nanoseconds]
  split <;> simp only [oneSecond] <;> omega

theorem nanoseconds_add (a b : Time) :
    (a.add b).nanoseconds = a.nanoseconds + b.nanoseconds := by
  simp only [add, nanoseconds]
  split <;> simp only [oneSecond] <;> omega

theorem Normalised.sub (first : a.Normalised) (second : b.Normalised) :
    (a.sub b).Normalised := by
  rcases first with ⟨nonneg, less⟩
  rcases second with ⟨nonneg', less'⟩
  rw [Time.sub]
  split
  next borrows => constructor <;> dsimp only <;> omega
  next enough => constructor <;> dsimp only <;> omega

theorem Normalised.add (first : a.Normalised) (second : b.Normalised) :
    (a.add b).Normalised := by
  rcases first with ⟨nonneg, less⟩
  rcases second with ⟨nonneg', less'⟩
  rw [Time.add]
  split
  next carries => constructor <;> dsimp only <;> omega
  next fits => constructor <;> dsimp only <;> omega

theorem Normalised.equals_iff (first : a.Normalised) (second : b.Normalised) :
    a.equals b = true ↔ a.nanoseconds = b.nanoseconds :=
  Time.equals_iff.trans (first.eq_iff second)

theorem Normalised.lessThan_iff (first : a.Normalised) (second : b.Normalised) :
    a.lessThan b = true ↔ a.nanoseconds < b.nanoseconds := by
  rcases first with ⟨nonneg, less⟩
  rcases second with ⟨nonneg', less'⟩
  simp only [lessThan, nanoseconds, oneSecond] at *
  split_ifs <;> simp only [false_iff, true_iff] <;> omega

/-- The operations compute with the numbers of normalised times, and the comparison is a total
order that is compatible with the addition. -/
theorem arithmetic_exact (first : a.Normalised) (second : b.Normalised) (third : c.Normalised) :
    ((a.add b).Normalised ∧ (a.add b).nanoseconds = a.nanoseconds + b.nanoseconds) ∧
    ((a.sub b).Normalised ∧ (a.sub b).nanoseconds = a.nanoseconds - b.nanoseconds) ∧
    (a.lessThan b = true ↔ a.nanoseconds < b.nanoseconds) ∧
    (a.equals b = true ↔ a.nanoseconds = b.nanoseconds) ∧
    a.lessThan a = false ∧
    (a.lessThan b = true → b.lessThan c = true → a.lessThan c = true) ∧
    (a.lessThan b = true ∨ a.equals b = true ∨ b.lessThan a = true) ∧
    ((a.add c).lessThan (b.add c) = a.lessThan b) := by
  have sums : (a.add c).lessThan (b.add c) = true ↔ a.lessThan b = true := by
    rw [(first.add third).lessThan_iff (second.add third), first.lessThan_iff second,
      nanoseconds_add, nanoseconds_add, add_lt_add_iff_right]
  refine ⟨⟨first.add second, nanoseconds_add a b⟩, ⟨first.sub second, nanoseconds_sub a b⟩,
    first.lessThan_iff second, first.equals_iff second, ?_, ?_, ?_, Bool.eq_iff_iff.mpr sums⟩
  · rw [Bool.eq_false_iff, Ne, first.lessThan_iff first]
    exact lt_irrefl _
  · rw [first.lessThan_iff second, second.lessThan_iff third, first.lessThan_iff third]
    exact lt_trans
  · rw [first.lessThan_iff second, first.equals_iff second, second.lessThan_iff first]
    exact lt_trichotomy _ _

theorem arithmetic_exact_negative :
    ((⟨-3, 900000000⟩ : Time).sub ⟨-1, 950000000⟩).Normalised ∧
      (⟨-3, 900000000⟩ : Time).lessThan ⟨-1, 950000000⟩ = true :=
  have exact := @arithmetic_exact ⟨-3, 900000000⟩ ⟨-1, 950000000⟩ ⟨0, 0⟩
    ⟨by decide, by decide⟩ ⟨by decide, by decide⟩ ⟨by decide, by decide⟩
  ⟨exact.2.1.1, exact.2.2.1.mpr (by decide)⟩

end Arithmetic

end Time

end Talpf
