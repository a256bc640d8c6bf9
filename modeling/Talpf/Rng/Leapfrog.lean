import Talpf.Rng.Division
import Talpf.Library.Congruential
import Mathlib.Data.Nat.ModEq
import Mathlib.Logic.Equiv.Fin.Basic

/-!
# Splitting a sequence

Every process skips the numbers of the others.  The increment of its stream is
a geometric sum, which is computed as a quotient of words.
-/

namespace Talpf

open Finset

namespace Rng

/-- What the skipping of some numbers adds. -/
def geometric (state : Rng) (n : ℕ) : ℕ :=
  state.increment.toNat * (∑ i ∈ range n, state.multiplier.toNat ^ i) % 2 ^ 64

/-- What is divided for the skipping of some numbers. -/
def numerator (state : Rng) (n : ℕ) : ℕ :=
  product ((state.multiplier.toNat ^ n + (2 ^ 64 - 1)) % 2 ^ 64) state.increment.toNat

/-- The quotient is the geometric sum. -/
def Jumps (state : Rng) (n : ℕ) : Prop :=
  if numerator state n < 2 ^ 64 then
    state.multiplier ≠ 1 ∧ numerator state n / (state.multiplier - 1).toNat = geometric state n
  else Leads (numerator state n) (state.multiplier - 1).toNat (geometric state n)

/-- The stream of a process consists of the numbers that are due to it, whatever the estimates of
its divisions are. -/
def Leapfrogs (state : Rng) (pid nprocs : ℕ) : Prop :=
  ∀ estimate estimate', ∃ fuel after,
    parallelize fuel estimate estimate' state (.ofNat pid) (.ofNat nprocs) = some after ∧
      ∀ k, (next^[k] after).value = (next^[pid + k * nprocs] state).value

section Powers

open scoped UInt64.CommRing

theorem multiplyPowers_eq (i : ℕ) (m y power : UInt64) (enough : m.toNat < 2 ^ i) :
    multiplyPowers i y power m = y * power ^ m.toNat := by
  induction i generalizing m y power with
  | zero =>
      rw [Nat.pow_zero, Nat.lt_one_iff] at enough
      rw [multiplyPowers, enough, pow_zero, mul_one]
  | succ i ih =>
      have half : (m / 2).toNat = m.toNat / 2 := UInt64.toNat_div _ _
      have odd : m % 2 = 1 ↔ m.toNat % 2 = 1 := by
        rw [← UInt64.toNat_inj]
        rfl
      rw [multiplyPowers, ih _ _ _ (by omega), half, ← pow_two, ← pow_mul]
      have parts := Nat.div_add_mod m.toNat 2
      split
      next isOdd =>
        rw [odd.mp isOdd] at parts
        rw [mul_assoc, ← pow_succ', parts]
      next isEven =>
        rw [(Nat.mod_two_eq_zero_or_one _).resolve_right (isEven ∘ odd.mpr), Nat.add_zero] at parts
        rw [parts]

theorem intPow_eq (x n : UInt64) : intPow x n = x ^ n.toNat :=
  (multiplyPowers_eq _ _ _ _ n.toNat.lt_two_pow_self).trans (one_mul _)

theorem toNat_power (x : UInt64) (n : ℕ) : (x ^ n).toNat = x.toNat ^ n % 2 ^ 64 := by
  induction n with
  | zero => rfl
  | succ n ih => rw [pow_succ, UInt64.toNat_mul, ih, Nat.mod_mul_mod, ← pow_succ]

theorem toNat_power_sub_one (x : UInt64) (n : ℕ) :
    (x ^ n - 1).toNat = (x.toNat ^ n + (2 ^ 64 - 1)) % 2 ^ 64 := by
  rw [UInt64.toNat_sub, toNat_power, UInt64.toNat_one, Nat.add_mod_mod, Nat.add_comm]

theorem toNat_increment (state : Rng) (n : ℕ) :
    (Congruential.increment state.multiplier state.increment n).toNat = geometric state n := by
  have itself : ∀ word : UInt64, (word.toNat : UInt64) = word := fun word => UInt64.ofNat_toNat
  have isCast : Congruential.increment state.multiplier state.increment n =
      ((state.increment.toNat * ∑ i ∈ range n, state.multiplier.toNat ^ i : ℕ) : UInt64) := by
    push_cast
    simp only [itself, Congruential.increment]
  rw [isCast]
  exact UInt64.toNat_ofNat'

theorem dividesTo_increment_iff (state : Rng) (n : ℕ) :
    DividesTo (mult64 (state.multiplier ^ n - 1) state.increment).1
      (mult64 (state.multiplier ^ n - 1) state.increment).2 (state.multiplier - 1)
      (Congruential.increment state.multiplier state.increment n) ↔ Jumps state n := by
  rcases toNat_mult64 (state.multiplier ^ n - 1) state.increment with ⟨high, low⟩
  rw [toNat_power_sub_one] at high low
  have isZero : (mult64 (state.multiplier ^ n - 1) state.increment).1 = 0 ↔
      numerator state n < 2 ^ 64 := by
    rw [← UInt64.toNat_inj, high, UInt64.toNat_zero, numerator]
    omega
  have isNumerator : dividend (mult64 (state.multiplier ^ n - 1) state.increment).1
      (mult64 (state.multiplier ^ n - 1) state.increment).2 = numerator state n := by
    rw [dividend, high, low, numerator]
    omega
  rw [dividesTo_iff, Jumps, isNumerator, toNat_increment]
  by_cases single : numerator state n < 2 ^ 64
  · rw [if_pos (isZero.mpr single), if_pos single, ← UInt64.toNat_inj, toNat_increment,
      UInt64.toNat_div, low, ← numerator, Nat.mod_eq_of_lt single, Ne, sub_eq_zero]
  · rw [if_neg (isZero.not.mpr single), if_neg single]

/-- One step of the sequence. -/
theorem next_value_iterate (state : Rng) (k : ℕ) : (next^[k] state).value =
    (Congruential.affine state.multiplier state.increment)^[k] state.value := by
  suffices together : ∀ k, next^[k] state = { state with
      value := (Congruential.affine state.multiplier state.increment)^[k] state.value } by
    rw [together]
  intro k
  induction k with
  | zero => rfl
  | succ k ih => rw [Function.iterate_succ_apply', Function.iterate_succ_apply', ih, next]; rfl

/-- A stream is right for all estimates if and only if both of its quotients are. -/
theorem leapfrogs_iff (state : Rng) {pid nprocs : ℕ} (inGroup : pid < nprocs)
    (fits : nprocs < 2 ^ 31) :
    Leapfrogs state pid nprocs ↔ Jumps state pid ∧ Jumps state nprocs := by
  have word : nprocs < UInt64.size := fits.trans (by decide)
  have isPid := UInt64.toNat_ofNat_of_lt' (inGroup.trans word)
  have isNprocs := UInt64.toNat_ofNat_of_lt' word
  have skips : ∀ begin step : UInt64, (∀ k, (next^[k] ⟨state.multiplier ^ nprocs, step,
      state.multiplier ^ pid * state.value + begin⟩).value =
        (next^[pid + k * nprocs] state).value) ↔
      begin = Congruential.increment state.multiplier state.increment pid ∧
        step = Congruential.increment state.multiplier state.increment nprocs := by
    intro begin step
    simp only [next_value_iterate]
    rw [Congruential.skips_iff, Congruential.iterate_affine, Congruential.affine, add_right_inj]
  rw [← dividesTo_increment_iff, ← dividesTo_increment_iff]
  simp only [Leapfrogs, parallelize, Option.bind_eq_some_iff, Option.map_eq_some_iff, intPow_eq,
    isPid, isNprocs]
  constructor
  · intro leapfrogs
    constructor
    · intro estimate
      rcases leapfrogs estimate 0 with ⟨fuel, _, ⟨begin, isBegin, step, _, rfl⟩, skipped⟩
      exact ⟨fuel, ((skips begin step).mp skipped).1 ▸ isBegin⟩
    · intro estimate
      rcases leapfrogs 0 estimate with ⟨fuel, _, ⟨begin, _, step, isStep, rfl⟩, skipped⟩
      exact ⟨fuel, ((skips begin step).mp skipped).2 ▸ isStep⟩
  · rintro ⟨begins, steps⟩ estimate estimate'
    rcases begins estimate with ⟨fuel, isBegin⟩
    rcases steps estimate' with ⟨more, isStep⟩
    exact ⟨max fuel more, _, ⟨_, div64_of_le (Nat.le_max_left _ _) isBegin, _,
      div64_of_le (Nat.le_max_right _ _) isStep, rfl⟩, (skips _ _).mpr ⟨rfl, rfl⟩⟩

end Powers

/-- The streams of a group that are right partition the sequence. -/
theorem exists_places (state : Rng) {nprocs : ℕ} (positive : 1 ≤ nprocs)
    (leapfrogs : ∀ pid < nprocs, Leapfrogs state pid nprocs) (estimate estimate' : UInt64) :
    ∃ streams : Fin nprocs → Rng, (∀ pid : Fin nprocs, ∃ fuel,
      parallelize fuel estimate estimate' state (.ofNat pid) (.ofNat nprocs) =
        some (streams pid)) ∧
    ∃ places : ℕ × Fin nprocs ≃ ℕ, ∀ k pid,
      (next^[k] (streams pid)).value = (next^[places (k, pid)] state).value := by
  have each : ∀ pid : Fin nprocs, ∃ after, (∃ fuel,
      parallelize fuel estimate estimate' state (.ofNat pid) (.ofNat nprocs) =
        some after) ∧
      ∀ k, (next^[k] after).value = (next^[pid + k * nprocs] state).value := by
    intro pid
    rcases leapfrogs pid pid.isLt estimate estimate' with ⟨fuel, after, result, skipped⟩
    exact ⟨after, ⟨fuel, result⟩, skipped⟩
  choose streams results skipped using each
  have : NeZero nprocs := ⟨Nat.ne_of_gt positive⟩
  refine ⟨streams, results, (Nat.divModEquiv nprocs).symm, ?_⟩
  intro k pid
  rw [skipped, Nat.divModEquiv_symm_apply, Nat.add_comm]

/-- The stream of a process is right for all estimates if and only if both of its quotients are
geometric sums.  If that holds for every process, the streams partition the sequence. -/
theorem parallelize_leapfrogs_iff (state : Rng) (nprocs : ℕ) (positive : 1 ≤ nprocs)
    (fits : nprocs < 2 ^ 31) :
    (∀ pid < nprocs, Leapfrogs state pid nprocs ↔ Jumps state pid ∧ Jumps state nprocs) ∧
    ((∀ pid < nprocs, Jumps state pid ∧ Jumps state nprocs) → ∀ estimate estimate',
      ∃ streams : Fin nprocs → Rng, (∀ pid : Fin nprocs, ∃ fuel,
        parallelize fuel estimate estimate' state (.ofNat pid) (.ofNat nprocs) =
          some (streams pid)) ∧
      ∃ places : ℕ × Fin nprocs ≃ ℕ, ∀ k pid,
        (next^[k] (streams pid)).value = (next^[places (k, pid)] state).value) :=
  ⟨fun _ inGroup => leapfrogs_iff state inGroup fits, fun jumps => exists_places state positive
    fun pid inGroup => (leapfrogs_iff state inGroup fits).mpr (jumps pid inGroup)⟩

theorem create_jumps_zero (seed : UInt64) : Jumps (create seed) 0 := by
  have isZero : numerator (create seed) 0 = 0 := by
    simp [numerator, product, middle]
  rw [Jumps, isZero, if_pos (by decide)]
  exact ⟨show (6364136223846793005 : UInt64) ≠ 1 by decide, by simp [geometric]⟩

section Parameters

variable (seed : UInt64)

@[simp]
theorem toNat_create_multiplier : (create seed).multiplier.toNat = 6364136223846793005 := by
  change (6364136223846793005 : UInt64).toNat = _
  decide

@[simp]
theorem toNat_create_increment : (create seed).increment.toNat = 1442695040888963407 := by
  change (1442695040888963407 : UInt64).toNat = _
  decide

theorem toNat_create_divisor :
    ((create seed).multiplier - 1).toNat = 6364136223846793004 := by
  change (6364136223846793005 - 1 : UInt64).toNat = _
  decide

end Parameters

/-- A single process keeps the sequence: a product with its divisor loses less than three times
the divisor. -/
theorem create_jumps_one (seed : UInt64) : Jumps (create seed) 1 := by
  have isNumerator : numerator (create seed) 1 =
      product 6364136223846793004 1442695040888963407 := by
    rw [numerator, pow_one, toNat_create_multiplier, toNat_create_increment]
    rfl
  have isGeometric : geometric (create seed) 1 = 1442695040888963407 := by
    rw [geometric, sum_range_one, pow_zero, Nat.mul_one, toNat_create_increment]
    rfl
  have close : ∀ e < 2 ^ 64, 6364136223846793004 * e < product 6364136223846793004 e + 2 ^ 64 := by
    intro e word
    rw [← product_add_lost, lost, middle]
    omega
  rw [Jumps, isNumerator, isGeometric, toNat_create_divisor, if_neg (by decide)]
  have far : ∀ e, 1442695040888963407 + 2 < e → e < 2 ^ 64 →
      product 6364136223846793004 1442695040888963407 < product 6364136223846793004 e := by
    intro e beyond word
    have bound := close e word
    have := product_le 6364136223846793004 1442695040888963407
    omega
  refine ⟨?_, by decide, by decide, ?_⟩
  · intro e le
    rcases Nat.lt_or_ge e (1442695040888963407 - 2) with less | near
    · have bound := close 1442695040888963407 (by decide)
      have := product_le 6364136223846793004 e
      omega
    · have cases : e = 1442695040888963407 - 2 ∨ e = 1442695040888963407 - 1 ∨
          e = 1442695040888963407 := by omega
      rcases cases with rfl | rfl | rfl
      · decide
      · decide
      · rfl
  · intro low high beyond less inside lower
    have : low = 1442695040888963407 + 2 := by
      by_contra other
      have := far low (by omega) (by omega)
      omega
    subst this
    exact absurd lower (by decide)

theorem parallelize_leapfrogs_single : Leapfrogs (create 0) 0 1 :=
  ((parallelize_leapfrogs_iff (create 0) 1 (by decide) (by decide)).1 0 (by decide)).mpr
    ⟨create_jumps_zero 0, create_jumps_one 0⟩

/-- Two processes do not: the quotient is 1704922941347274441, the geometric sum is
1876011003808476466. -/
theorem not_create_jumps_two (seed : UInt64) : ¬Jumps (create seed) 2 := by
  have isNumerator : numerator (create seed) 2 =
      product ((6364136223846793005 ^ 2 + (2 ^ 64 - 1)) % 2 ^ 64) 1442695040888963407 := by
    rw [numerator, toNat_create_multiplier, toNat_create_increment]
  have isGeometric : geometric (create seed) 2 = 1876011003808476466 := by
    rw [geometric, sum_range_succ, sum_range_one, toNat_create_multiplier, toNat_create_increment]
    rfl
  rw [Jumps, isNumerator, isGeometric, toNat_create_divisor, if_neg (by decide)]
  intro leads
  exact absurd (leads.before 1704922941347274442 (by decide)) (by decide)

theorem parallelize_not_leapfrogs : ¬∀ (seed : UInt64) (nprocs : ℕ), 1 ≤ nprocs →
    nprocs < 2 ^ 31 → ∀ pid < nprocs, Leapfrogs (create seed) pid nprocs := by
  intro leapfrogs
  have jumps := (leapfrogs_iff (create 0) (by decide) (by decide)).mp
    (leapfrogs 0 2 (by decide) (by decide) 0 (by decide))
  exact not_create_jumps_two 0 jumps.2

end Rng

end Talpf
