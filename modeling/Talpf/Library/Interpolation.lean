import Mathlib.Algebra.Order.Field.Basic
import Mathlib.Data.Fintype.Fin
import Mathlib.Order.Fin.Basic
import Mathlib.Order.Interval.Set.UnorderedInterval
import Mathlib.Tactic.Linarith
import Mathlib.Tactic.Ring

/-!
# Linear interpolation in a sampled table

A table has measurements at strictly increasing sizes.  The place of a size in
the table is the first sample that is larger, and in between two samples the
measurements are interpolated linearly.
-/

namespace Interpolation

universe u

section Places

variable {α : Type u} [LinearOrder α] {n : ℕ}

/-- The first sample that is larger, or `n` if none is. -/
def upperBound (samples : Fin n → α) (x : α) : ℕ :=
  (List.ofFn samples).findIdx fun sample => decide (x < sample)

variable {samples : Fin n → α} {x : α}

theorem upperBound_le (samples : Fin n → α) (x : α) : upperBound samples x ≤ n := by
  have bound : upperBound samples x ≤ (List.ofFn samples).length := List.findIdx_le_length
  rw [List.length_ofFn] at bound
  exact bound

/-- All samples before the place are at most as large. -/
theorem le_of_lt_upperBound {i : Fin n} (before : i.val < upperBound samples x) :
    samples i ≤ x := by
  have smaller := List.not_of_lt_findIdx before
  rw [decide_eq_false_iff_not, List.getElem_ofFn, not_lt] at smaller
  exact smaller

/-- The sample at the place is larger. -/
theorem lt_of_upperBound_eq {i : Fin n} (place : upperBound samples x = i.val) :
    x < samples i := by
  have inside : upperBound samples x < (List.ofFn samples).length := by
    rw [place, List.length_ofFn]
    exact i.isLt
  have larger : decide (x < (List.ofFn samples)[upperBound samples x]) = true :=
    @List.findIdx_getElem _ (fun sample => decide (x < sample)) _ inside
  rw [decide_eq_true_eq, List.getElem_ofFn] at larger
  have same : (⟨upperBound samples x, inside.trans_eq List.length_ofFn⟩ : Fin n) = i :=
    Fin.ext place
  exact same ▸ larger

/-- In a strictly increasing table, the place is that between two neighbours. -/
theorem upperBound_eq {i j : Fin n} (increasing : StrictMono samples)
    (next : j.val = i.val + 1) (above : samples i ≤ x) (below : x < samples j) :
    upperBound samples x = j.val := by
  apply Nat.le_antisymm
  · by_contra after
    exact absurd (le_of_lt_upperBound (not_le.mp after)) (not_le.mpr below)
  · by_contra before
    have inside : upperBound samples x < n := (not_le.mp before).trans j.isLt
    have larger : x < samples ⟨upperBound samples x, inside⟩ := lt_of_upperBound_eq rfl
    have order := increasing.lt_iff_lt.mp (above.trans_lt larger)
    rw [Fin.lt_def] at order
    simp only at order
    omega

/-- The place is the first one only below all samples. -/
theorem upperBound_pos_iff (positive : 0 < n) :
    0 < upperBound samples x ↔ samples ⟨0, positive⟩ ≤ x := by
  constructor
  · intro later
    exact le_of_lt_upperBound later
  · intro above
    by_contra first
    exact absurd (lt_of_upperBound_eq (Nat.eq_zero_of_not_pos first)) (not_lt.mpr above)

/-- The place is behind the table only from the last sample on. -/
theorem upperBound_lt_iff (last : Fin n) (isLast : last.val + 1 = n)
    (increasing : StrictMono samples) : upperBound samples x < n ↔ x < samples last := by
  constructor
  · intro inside
    have larger : x < samples ⟨upperBound samples x, inside⟩ := lt_of_upperBound_eq rfl
    refine larger.trans_le (increasing.monotone ?_)
    rw [Fin.le_def]
    simp only
    omega
  · intro below
    by_contra outside
    have all : last.val < upperBound samples x := by
      have bound := upperBound_le samples x
      omega
    exact absurd (le_of_lt_upperBound all) (not_le.mpr below)

end Places

section Lines

variable {K : Type u} [Field K]

/-- The value at `b` on the line through two points. -/
def line (l₁ l₂ b₁ b₂ b : K) : K := l₁ + (l₂ - l₁) * (b - b₁) / (b₂ - b₁)

theorem line_left (l₁ l₂ b₁ b₂ : K) : line l₁ l₂ b₁ b₂ b₁ = l₁ := by
  rw [line, sub_self, mul_zero, zero_div, add_zero]

variable [LinearOrder K] [IsStrictOrderedRing K] {l₁ l₂ b₁ b₂ b : K}

/-- Between the two points the value is between theirs. -/
theorem line_mem_uIcc (above : b₁ ≤ b) (below : b ≤ b₂) (apart : b₁ < b₂) :
    line l₁ l₂ b₁ b₂ b ∈ Set.uIcc l₁ l₂ := by
  have width : 0 < b₂ - b₁ := sub_pos.mpr apart
  have start : 0 ≤ (b - b₁) / (b₂ - b₁) := div_nonneg (sub_nonneg.mpr above) width.le
  have stop : (b - b₁) / (b₂ - b₁) ≤ 1 := (div_le_one width).mpr (by linarith)
  have value : line l₁ l₂ b₁ b₂ b = l₁ + (l₂ - l₁) * ((b - b₁) / (b₂ - b₁)) := by
    rw [line, mul_div_assoc]
  rw [value]
  rcases le_total l₁ l₂ with rises | falls
  · rw [Set.uIcc_of_le rises]
    constructor
    · nlinarith
    · nlinarith
  · rw [Set.uIcc_of_ge falls]
    constructor
    · nlinarith
    · nlinarith

end Lines

end Interpolation
