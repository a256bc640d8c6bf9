import Talpf.Rng
import Mathlib.Algebra.GroupWithZero.Nat
import Mathlib.Data.UInt
import Mathlib.Tactic.Ring

/-!
# Products and quotients of words

`mult64` adds the upper and the lower half of the two middle terms of a product
to its high and its low word, although the lower half belongs into the upper
half of the low word, and the carry of their sum is lost.  `div64` compares with
such products.
-/

namespace Talpf

open Search

namespace Rng

/-- The two middle terms of a product. -/
def middle (a b : ℕ) : ℕ := a % 2 ^ 32 * (b / 2 ^ 32) + a / 2 ^ 32 * (b % 2 ^ 32)

/-- The number whose two words `mult64` stores. -/
def product (a b : ℕ) : ℕ :=
  (a / 2 ^ 32 * (b / 2 ^ 32) + middle a b % 2 ^ 64 / 2 ^ 32) * 2 ^ 64 +
    (a % 2 ^ 32 * (b % 2 ^ 32) + middle a b % 2 ^ 32)

/-- How much of a product is lost. -/
def lost (a b : ℕ) : ℕ :=
  (2 ^ 32 - 1) * (middle a b % 2 ^ 32) + 2 ^ 96 * (middle a b / 2 ^ 64)

theorem product_add_lost (a b : ℕ) : product a b + lost a b = a * b := by
  have parts : a * b = a / 2 ^ 32 * (b / 2 ^ 32) * 2 ^ 64 + middle a b * 2 ^ 32 +
      a % 2 ^ 32 * (b % 2 ^ 32) := by
    have first := Nat.div_add_mod a (2 ^ 32)
    have second := Nat.div_add_mod b (2 ^ 32)
    calc a * b = (2 ^ 32 * (a / 2 ^ 32) + a % 2 ^ 32) * (2 ^ 32 * (b / 2 ^ 32) + b % 2 ^ 32) := by
          rw [first, second]
      _ = _ := by
          rw [middle]
          ring
  rw [parts, product, lost]
  omega

theorem product_le (a b : ℕ) : product a b ≤ a * b :=
  (product_add_lost a b).symm ▸ Nat.le_add_right _ _

/-- Nothing is lost if the middle terms have no lower half and no carry. -/
theorem lost_eq_zero_iff (a b : ℕ) : lost a b = 0 ↔ middle a b < 2 ^ 64 ∧ 2 ^ 32 ∣ middle a b := by
  rw [lost]
  omega

theorem mul_lt_word {a b : ℕ} (first : a < 2 ^ 32) (second : b < 2 ^ 32) :
    a * b + 2 ^ 32 ≤ 2 ^ 64 - 2 ^ 32 + 1 := by
  have bound : a * b ≤ (2 ^ 32 - 1) * (2 ^ 32 - 1) :=
    Nat.mul_le_mul (Nat.le_pred_of_lt first) (Nat.le_pred_of_lt second)
  omega

/-- The two words of `mult64`. -/
theorem toNat_mult64 (a b : UInt64) :
    (mult64 a b).1.toNat = product a.toNat b.toNat / 2 ^ 64 ∧
      (mult64 a b).2.toNat = product a.toNat b.toNat % 2 ^ 64 := by
  have high : ∀ word : UInt64, (word >>> 32).toNat = word.toNat / 2 ^ 32 := fun word =>
    Nat.shiftRight_eq_div_pow _ 32
  have low : ∀ word : UInt64, (word &&& 0xffffffff).toNat = word.toNat % 2 ^ 32 := fun word =>
    Nat.and_two_pow_sub_one_eq_mod _ 32
  have aBound : a.toNat / 2 ^ 32 < 2 ^ 32 := by
    have := a.toNat_lt
    omega
  have bBound : b.toNat / 2 ^ 32 < 2 ^ 32 := by
    have := b.toNat_lt
    omega
  have highs := mul_lt_word aBound bBound
  have lows := mul_lt_word (Nat.mod_lt a.toNat (Nat.two_pow_pos 32))
    (Nat.mod_lt b.toNat (Nat.two_pow_pos 32))
  have sum : ((a &&& (0xffffffff : UInt64)) * (b >>> 32) +
      (a >>> 32) * (b &&& (0xffffffff : UInt64))).toNat = middle a.toNat b.toNat % 2 ^ 64 := by
    simp only [UInt64.toNat_add, UInt64.toNat_mul, high, low, middle, ← Nat.add_mod]
  simp only [mult64, UInt64.toNat_add, UInt64.toNat_mul, high, low, sum, product]
  omega

section Loops

variable {xHigh xLow nom : UInt64}

/-- The number with two given words. -/
def dividend (xHigh xLow : UInt64) : ℕ := xHigh.toNat * 2 ^ 64 + xLow.toNat

theorem dividend_div (xHigh xLow : UInt64) : dividend xHigh xLow / 2 ^ 64 = xHigh.toNat := by
  have := xLow.toNat_lt
  rw [dividend]
  omega

theorem lowEnough_iff {estimate : UInt64} : lowEnough xHigh xLow nom estimate = true ↔
    product nom.toNat estimate.toNat / 2 ^ 64 < dividend xHigh xLow / 2 ^ 64 := by
  rcases toNat_mult64 nom estimate with ⟨high, low⟩
  have := xLow.toNat_lt
  simp only [lowEnough, Bool.not_eq_true', Bool.or_eq_false_iff, decide_eq_false_iff_not,
    Bool.and_eq_false_iff, beq_eq_false_iff_ne, ge_iff_le, gt_iff_lt, ne_eq,
    UInt64.le_iff_toNat_le, UInt64.lt_iff_toNat_lt, ← UInt64.toNat_inj, high, low, dividend_div]
  omega

theorem tooHigh_iff {estimate : UInt64} : tooHigh xHigh xLow nom estimate = true ↔
    dividend xHigh xLow < product nom.toNat estimate.toNat := by
  rcases toNat_mult64 nom estimate with ⟨high, low⟩
  have := xLow.toNat_lt
  simp only [tooHigh, Bool.not_eq_true', Bool.or_eq_false_iff, decide_eq_false_iff_not,
    Bool.and_eq_false_iff, beq_eq_false_iff_ne, ne_eq,
    UInt64.le_iff_toNat_le, UInt64.lt_iff_toNat_lt, ← UInt64.toNat_inj, high, low, dividend]
  omega

theorem toNat_raise (k : ℕ) (estimate : UInt64) :
    ((· + 1)^[k] estimate).toNat = (estimate.toNat + k) % 2 ^ 64 := by
  induction k with
  | zero => exact (Nat.mod_eq_of_lt estimate.toNat_lt).symm
  | succ k ih =>
      rw [Function.iterate_succ_apply', UInt64.toNat_add, ih, UInt64.toNat_one]
      omega

/-- From any estimate the first loop goes down to one whose product has a lower high word. -/
theorem exists_lower (xLow nom : UInt64) (positive : 0 < xHigh.toNat) (estimate : UInt64) :
    ∃ low, Finds (lowEnough xHigh xLow nom) (· - 1) estimate low ∧
      low.toNat ≤ estimate.toNat ∧ lowEnough xHigh xLow nom low = true := by
  induction isCount : estimate.toNat generalizing estimate with
  | zero =>
      have stops : lowEnough xHigh xLow nom estimate = true := by
        rw [lowEnough_iff, dividend_div, isCount]
        simpa [product, middle] using positive
      exact ⟨estimate, finds_here stops, isCount.le, stops⟩
  | succ count ih =>
      by_cases stops : lowEnough xHigh xLow nom estimate = true
      · exact ⟨estimate, finds_here stops, isCount.le, stops⟩
      · have less : (estimate - 1).toNat = count := by
          rw [UInt64.toNat_sub_of_le _ _ (by rw [UInt64.le_iff_toNat_le, UInt64.toNat_one]; omega),
            UInt64.toNat_one]
          omega
        rcases ih (estimate - 1) less with ⟨low, found, le, lower⟩
        rcases finds_iff.mp found with ⟨k, reached, _, passed⟩
        refine ⟨low, finds_iff.mpr ⟨k + 1, reached, lower, ?_⟩, by omega, lower⟩
        intro j before
        cases j with
        | zero => exact Bool.eq_false_iff.mpr stops
        | succ j => exact passed j (Nat.lt_of_succ_lt_succ before)

/-- The second loop goes up to the first product above the dividend. -/
theorem finds_tooHigh_iff {low high : UInt64} :
    Finds (tooHigh xHigh xLow nom) (· + 1) low high ↔
      ∃ k, high.toNat = (low.toNat + k) % 2 ^ 64 ∧
        dividend xHigh xLow < product nom.toNat high.toNat ∧
        ∀ j < k, product nom.toNat ((low.toNat + j) % 2 ^ 64) ≤ dividend xHigh xLow := by
  rw [finds_iff]
  apply exists_congr
  intro k
  simp only [← UInt64.toNat_inj, toNat_raise, Bool.eq_false_iff, ne_eq, tooHigh_iff, Nat.not_lt,
    @eq_comm _ high.toNat]

/-- Whatever the estimate is, the loops end at a number: it is the last one before the first
product above the dividend, and no estimate above it is low enough to begin the second loop and
has such a product above itself. -/
structure Leads (x nom r : ℕ) : Prop where
  before : ∀ e ≤ r, product nom e ≤ x
  fits : r + 1 < 2 ^ 64
  after : x < product nom (r + 1)
  ordered : ∀ low high, r + 1 < low → low < high → high < 2 ^ 64 →
    product nom low / 2 ^ 64 < x / 2 ^ 64 → product nom high ≤ x

/-- The division ends with a quotient for every estimate. -/
def DividesTo (xHigh xLow nom quotient : UInt64) : Prop :=
  ∀ estimate, ∃ fuel, div64 fuel estimate xHigh xLow nom = some quotient

theorem div64_of_le {fuel more : ℕ} {estimate quotient : UInt64} (le : fuel ≤ more)
    (result : div64 fuel estimate xHigh xLow nom = some quotient) :
    div64 more estimate xHigh xLow nom = some quotient := by
  simp only [div64] at result ⊢
  split
  next zero => rwa [if_pos zero] at result
  next positive =>
    rw [if_neg positive] at result
    rcases Option.bind_eq_some_iff.mp result with ⟨low, lowers, rest⟩
    rcases Option.map_eq_some_iff.mp rest with ⟨high, raises, isLast⟩
    rw [search_of_le le lowers, Option.bind_some, search_of_le le raises, Option.map_some, isLast]

theorem exists_div64_iff {estimate quotient : UInt64} (positive : xHigh ≠ 0) :
    (∃ fuel, div64 fuel estimate xHigh xLow nom = some quotient) ↔
      ∃ low high, Finds (lowEnough xHigh xLow nom) (· - 1) estimate low ∧
        Finds (tooHigh xHigh xLow nom) (· + 1) low high ∧ high - 1 = quotient := by
  simp only [div64, if_neg positive, Option.bind_eq_some_iff, Option.map_eq_some_iff]
  constructor
  · rintro ⟨fuel, low, lowers, high, raises, result⟩
    exact ⟨low, high, ⟨fuel, lowers⟩, ⟨fuel, raises⟩, result⟩
  · rintro ⟨low, high, ⟨fuel, lowers⟩, ⟨more, raises⟩, result⟩
    exact ⟨max fuel more, low, search_of_le (Nat.le_max_left _ _) lowers, high,
      search_of_le (Nat.le_max_right _ _) raises, result⟩

theorem sub_one_eq_iff {high quotient : UInt64} :
    high - 1 = quotient ↔ high.toNat = (quotient.toNat + 1) % 2 ^ 64 := by
  rw [sub_eq_iff_eq_add, ← UInt64.toNat_inj, UInt64.toNat_add, UInt64.toNat_one]

theorem Leads.dividesTo {quotient : UInt64} (positive : xHigh ≠ 0)
    (leads : Leads (dividend xHigh xLow) nom.toNat quotient.toNat) :
    DividesTo xHigh xLow nom quotient := by
  intro estimate
  have high : 0 < xHigh.toNat := Nat.pos_of_ne_zero fun zero =>
    positive (UInt64.toNat_inj.mp zero)
  rcases exists_lower xLow nom high estimate with ⟨low, lowers, _, lower⟩
  rw [lowEnough_iff] at lower
  have fits := leads.fits
  refine (exists_div64_iff positive).mpr ⟨low, quotient + 1, lowers, ?_, add_sub_cancel_right _ _⟩
  have last : (quotient + 1).toNat = quotient.toNat + 1 := by
    rw [UInt64.toNat_add, UInt64.toNat_one, Nat.mod_eq_of_lt fits]
  rw [finds_tooHigh_iff, last]
  have bound := low.toNat_lt
  rcases Nat.lt_or_ge quotient.toNat low.toNat with above | below
  · -- the second loop goes on beyond the largest number
    have farther : quotient.toNat + 1 < low.toNat := by
      apply Nat.lt_of_le_of_ne (Nat.succ_le_of_lt above)
      intro (same : quotient.toNat + 1 = low.toNat)
      have := leads.after
      rw [same] at this
      have := Nat.div_le_div_right (c := 2 ^ 64) this.le
      omega
    refine ⟨2 ^ 64 - low.toNat + (quotient.toNat + 1), by omega, leads.after, ?_⟩
    intro j less
    rcases Nat.lt_or_ge (low.toNat + j) (2 ^ 64) with inside | wrapped
    · rw [Nat.mod_eq_of_lt inside]
      rcases Nat.eq_zero_or_pos j with rfl | more
      · rw [Nat.add_zero]
        by_contra exceeds
        have := Nat.div_le_div_right (c := 2 ^ 64) (Nat.not_le.mp exceeds).le
        omega
      · exact leads.ordered low.toNat (low.toNat + j) farther (by omega) inside lower
    · have behind : (low.toNat + j) % 2 ^ 64 = low.toNat + j - 2 ^ 64 := by omega
      rw [behind]
      exact leads.before _ (by omega)
  · refine ⟨quotient.toNat + 1 - low.toNat, by omega, leads.after, ?_⟩
    intro j less
    rw [Nat.mod_eq_of_lt (by omega)]
    exact leads.before _ (by omega)

theorem DividesTo.leads {quotient : UInt64} (positive : xHigh ≠ 0)
    (divides : DividesTo xHigh xLow nom quotient) :
    Leads (dividend xHigh xLow) nom.toNat quotient.toNat := by
  have high : 0 < xHigh.toNat := Nat.pos_of_ne_zero fun zero =>
    positive (UInt64.toNat_inj.mp zero)
  have bound := quotient.toNat_lt
  -- from the estimate zero the second loop goes through all smaller numbers
  have fromZero : quotient.toNat + 1 < 2 ^ 64 ∧
      dividend xHigh xLow < product nom.toNat (quotient.toNat + 1) ∧
        ∀ e ≤ quotient.toNat, product nom.toNat e ≤ dividend xHigh xLow := by
    rcases (exists_div64_iff positive).mp (divides 0) with ⟨low, last, lowers, raises, result⟩
    rcases exists_lower xLow nom high 0 with ⟨zero, lowersToo, isZero, _⟩
    obtain rfl := lowers.unique lowersToo
    have isZero : low.toNat = 0 := Nat.le_zero.mp isZero
    rcases finds_tooHigh_iff.mp raises with ⟨k, isLast, exceeds, passed⟩
    rw [isZero, Nat.zero_add] at isLast
    simp only [isZero, Nat.zero_add] at passed
    rw [sub_one_eq_iff] at result
    have inside : k < 2 ^ 64 := by
      by_contra beyond
      have reached := passed (k % 2 ^ 64) (by omega)
      rw [Nat.mod_mod, ← isLast] at reached
      omega
    rw [Nat.mod_eq_of_lt inside] at isLast
    have positiveLast : 0 < k := by
      apply Nat.pos_of_ne_zero
      intro zero
      rw [isLast, zero] at exceeds
      simp [product, middle] at exceeds
    have isNext : k = quotient.toNat + 1 := by omega
    refine ⟨by omega, isNext ▸ isLast ▸ exceeds, ?_⟩
    intro e le
    have reached := passed e (by omega)
    rwa [Nat.mod_eq_of_lt (by omega)] at reached
  rcases fromZero with ⟨fits, after, before⟩
  refine ⟨before, fits, after, ?_⟩
  intro low above beyond less inside lower
  by_contra exceeds
  have isLow : (UInt64.ofNat low).toNat = low := UInt64.toNat_ofNat_of_lt' (less.trans inside)
  have stops : lowEnough xHigh xLow nom (UInt64.ofNat low) = true := by
    rw [lowEnough_iff, isLow]
    exact lower
  rcases (exists_div64_iff positive).mp (divides (UInt64.ofNat low)) with
    ⟨start, last, lowers, raises, result⟩
  obtain rfl := lowers.unique (finds_here stops)
  rcases finds_tooHigh_iff.mp raises with ⟨k, isLast, _, passed⟩
  rw [isLow] at isLast
  rw [sub_one_eq_iff, Nat.mod_eq_of_lt fits] at result
  have reached := passed (above - low) (by omega)
  rw [isLow, Nat.mod_eq_of_lt (by omega), Nat.add_sub_cancel' less.le] at reached
  exact exceeds reached

/-- What `div64` computes when it does so for every estimate. -/
theorem dividesTo_iff (xHigh xLow nom quotient : UInt64) : DividesTo xHigh xLow nom quotient ↔
    if xHigh = 0 then nom ≠ 0 ∧ xLow / nom = quotient
    else Leads (dividend xHigh xLow) nom.toNat quotient.toNat := by
  split
  next zero =>
    simp only [DividesTo, div64, if_pos zero]
    by_cases isZero : nom = 0
    · simp [isZero]
    · simp [isZero]
  next positive =>
    exact ⟨fun divides => divides.leads positive, fun leads => leads.dividesTo positive⟩

/-- The product of the divisor and one more than the quotient stays above the dividend in spite of
what it loses, and no later product loses so much that the second loop could begin there and meet
a product above the dividend. -/
def Separated (x nom : ℕ) : Prop :=
  x / nom + 1 < 2 ^ 64 ∧ x + lost nom (x / nom + 1) < nom * (x / nom + 1) ∧
    ∀ low high, x / nom + 1 < low → low < high → high < 2 ^ 64 →
      nom * low < x / 2 ^ 64 * 2 ^ 64 + lost nom low → nom * high ≤ x + lost nom high

theorem leads_div_iff (x : ℕ) {nom : ℕ} : Leads x nom (x / nom) ↔ Separated x nom := by
  have above : ∀ e, x < product nom e ↔ x + lost nom e < nom * e := fun e => by
    rw [← product_add_lost]
    omega
  have below : ∀ e, product nom e ≤ x ↔ nom * e ≤ x + lost nom e := fun e => by
    rw [← product_add_lost]
    omega
  have lower : ∀ e, product nom e / 2 ^ 64 < x / 2 ^ 64 ↔
      nom * e < x / 2 ^ 64 * 2 ^ 64 + lost nom e := fun e => by
    rw [← product_add_lost]
    omega
  have before : ∀ e ≤ x / nom, product nom e ≤ x := fun e le =>
    calc product nom e ≤ nom * e := product_le nom e
      _ ≤ nom * (x / nom) := Nat.mul_le_mul_left nom le
      _ ≤ x := Nat.mul_div_le x nom
  constructor
  · intro leads
    exact ⟨leads.fits, (above _).mp leads.after, fun low high beyond less inside lost =>
      (below high).mp (leads.ordered low high beyond less inside ((lower low).mpr lost))⟩
  · rintro ⟨fits, after, ordered⟩
    exact ⟨before, fits, (above _).mpr after, fun low high beyond less inside lost =>
      (below high).mpr (ordered low high beyond less inside ((lower low).mp lost))⟩

/-- A product is exact if and only if its middle terms have no lower half and no carry, and a
quotient is exact for every estimate if and only if the dividend is a single word or the products
around it are separated. -/
theorem mult64_div64_exact_iff (a b xHigh xLow nom : UInt64) :
    ((mult64 a b).1.toNat * 2 ^ 64 + (mult64 a b).2.toNat = a.toNat * b.toNat ↔
      middle a.toNat b.toNat < 2 ^ 64 ∧ 2 ^ 32 ∣ middle a.toNat b.toNat) ∧
    (xHigh < nom →
      ((∀ estimate, ∃ fuel quotient, div64 fuel estimate xHigh xLow nom = some quotient ∧
          quotient.toNat = (xHigh.toNat * 2 ^ 64 + xLow.toNat) / nom.toNat) ↔
        xHigh = 0 ∨ Separated (xHigh.toNat * 2 ^ 64 + xLow.toNat) nom.toNat)) := by
  constructor
  · rcases toNat_mult64 a b with ⟨high, low⟩
    have total := product_add_lost a.toNat b.toNat
    rw [← lost_eq_zero_iff, high, low]
    omega
  · intro less
    rw [UInt64.lt_iff_toNat_lt] at less
    have bound : dividend xHigh xLow / nom.toNat < 2 ^ 64 := by
      rw [Nat.div_lt_iff_lt_mul (Nat.zero_lt_of_lt less), Nat.mul_comm]
      have := xLow.toNat_lt
      have := Nat.mul_le_mul_right (2 ^ 64) (Nat.succ_le_of_lt less)
      rw [dividend]
      omega
    have fits : (UInt64.ofNat (dividend xHigh xLow / nom.toNat)).toNat =
        dividend xHigh xLow / nom.toNat := UInt64.toNat_ofNat_of_lt' bound
    have exact_iff : (∀ estimate, ∃ fuel quotient,
        div64 fuel estimate xHigh xLow nom = some quotient ∧
          quotient.toNat = dividend xHigh xLow / nom.toNat) ↔
        DividesTo xHigh xLow nom (UInt64.ofNat (dividend xHigh xLow / nom.toNat)) := by
      apply forall_congr'
      intro estimate
      constructor
      · rintro ⟨fuel, quotient, result, isQuotient⟩
        refine ⟨fuel, result.trans (congrArg some (UInt64.toNat_inj.mp ?_))⟩
        rw [isQuotient, fits]
      · rintro ⟨fuel, result⟩
        exact ⟨fuel, _, result, fits⟩
    refine exact_iff.trans ((dividesTo_iff _ _ _ _).trans ?_)
    split
    next zero =>
      have nonzero : nom ≠ 0 := by
        rintro rfl
        exact absurd less (Nat.not_lt_zero _)
      have single : dividend xHigh xLow = xLow.toNat := by
        rw [dividend, zero, UInt64.toNat_zero, Nat.zero_mul, Nat.zero_add]
      refine iff_of_true ⟨nonzero, UInt64.toNat_inj.mp ?_⟩ (.inl zero)
      rw [fits, single, UInt64.toNat_div]
    next positive =>
      rw [fits, leads_div_iff]
      exact (or_iff_right positive).symm

/-- Multiples of the upper half of a word lose less than that half. -/
theorem lost_half_lt (e : ℕ) : lost (2 ^ 63) e < 2 ^ 63 := by
  have inWord := Nat.mod_lt e (show 0 < 2 ^ 32 by decide)
  simp only [lost, middle]
  omega

theorem separated_half : Separated (2 ^ 64) (2 ^ 63) := by
  have small := lost_half_lt (2 ^ 64 / 2 ^ 63 + 1)
  refine ⟨by omega, by omega, fun low high beyond _ _ inside => ?_⟩
  have := lost_half_lt low
  omega

theorem mult64_div64_exact_two_words : (1 : UInt64) < 0x8000000000000000 ∧
    ∀ estimate, ∃ fuel quotient,
      div64 fuel estimate 1 0 0x8000000000000000 = some quotient ∧ quotient.toNat = 2 := by
  have less : (1 : UInt64) < 0x8000000000000000 := by decide
  have dividend : (1 : UInt64).toNat * 2 ^ 64 + (0 : UInt64).toNat = 2 ^ 64 := rfl
  have divisor : (0x8000000000000000 : UInt64).toNat = 2 ^ 63 := rfl
  have exact_ := (mult64_div64_exact_iff 0 0 1 0 0x8000000000000000).2 less
  rw [dividend, divisor] at exact_
  exact ⟨less, exact_.mpr (.inr separated_half)⟩

/-- No product with a word exceeds a dividend that is one less than its double word. -/
theorem div64_never_ends (estimate : UInt64) (fuel : ℕ) :
    div64 fuel estimate 1 0xffffffffffffffff 2 = none := by
  apply Option.eq_none_iff_forall_ne_some.mpr
  intro quotient ends
  rcases (exists_div64_iff (by decide)).mp ⟨fuel, ends⟩ with ⟨low, high, _, raises, _⟩
  rcases finds_tooHigh_iff.mp raises with ⟨_, _, exceeds, _⟩
  have bound := high.toNat_lt
  have least := product_le (2 : UInt64).toNat high.toNat
  have isDividend : dividend 1 0xffffffffffffffff = 2 ^ 65 - 1 := rfl
  rw [isDividend] at exceeds
  change _ ≤ 2 * high.toNat at least
  omega

/-- The middle term of `2 ^ 32 * 1` is added to the low word without its shift, and the division
of `2 ^ 65 - 1` by two never ends. -/
theorem mult64_div64_inexact :
    mult64 (2 ^ 32) 1 = (0, 1) ∧
    (∀ estimate fuel, div64 fuel estimate 1 0xffffffffffffffff 2 = none) ∧
    ¬((∀ a b : UInt64, (mult64 a b).1.toNat * 2 ^ 64 + (mult64 a b).2.toNat = a.toNat * b.toNat) ∧
      ∀ xHigh xLow nom : UInt64, xHigh < nom → ∀ estimate, ∃ fuel quotient,
        div64 fuel estimate xHigh xLow nom = some quotient ∧
          quotient.toNat = (xHigh.toNat * 2 ^ 64 + xLow.toNat) / nom.toNat) := by
  refine ⟨by decide, div64_never_ends, ?_⟩
  rintro ⟨exact, _⟩
  exact absurd (exact (2 ^ 32) 1) (by decide)

end Loops

end Rng

end Talpf
