import Talpf.SparseSet
import Mathlib.Data.List.Induction

/-!
# Shrinking a sparse set

A set whose members lie below a bound keeps the offsets from the bound on where
they were at the beginning.  So it can be shrunk to any maximum that leaves room
for the bound, although `shrink` only ever looks at the last offset.
-/

namespace Talpf

namespace SparseSet

/-- All members lie below the bound, and the offsets from the bound on have not moved. -/
structure Settled (set : SparseSet) (bound : ℕ) : Prop where
  sizeLe : set.size ≤ bound
  fixed : ∀ i, bound ≤ i → i < set.domain.length → set.domain.getD i 0 = i

variable {set : SparseSet} {bound x newMax : ℕ}

namespace Settled

theorem mono (settled : set.Settled bound) {larger : ℕ} (le : bound ≤ larger) :
    set.Settled larger :=
  ⟨Nat.le_trans settled.sizeLe le, fun i above => settled.fixed i (Nat.le_trans le above)⟩

theorem clear (settled : set.Settled bound) : set.clear.Settled bound :=
  ⟨Nat.zero_le _, settled.fixed⟩

/-- An offset below the bound has its place below the bound. -/
theorem map_lt (settled : set.Settled bound) (wellFormed : set.WellFormed)
    (offset : x < set.domain.length) (below : x < bound) : set.map.getD x 0 < bound := by
  by_contra above
  have place := wellFormed.mapLt x offset
  have entry := settled.fixed _ (Nat.not_lt.mp above) place
  rw [wellFormed.domainMap x offset] at entry
  omega

/-- A place below the bound has its offset below the bound. -/
theorem domain_lt (settled : set.Settled bound) (wellFormed : set.WellFormed) {i : ℕ}
    (place : i < set.domain.length) (below : i < bound) : set.domain.getD i 0 < bound := by
  by_contra above
  have offset := wellFormed.domainLt i place
  have entry := settled.fixed _ (Nat.not_lt.mp above) offset
  have back := wellFormed.mapDomain _ offset
  rw [entry, wellFormed.mapDomain i place] at back
  omega

theorem insert (settled : set.Settled bound) (wellFormed : set.WellFormed)
    (lower : set.min ≤ x) (upper : x ≤ set.max) (below : x - set.min < bound) :
    (set.insert x).Settled bound := by
  by_cases present : set.contains x = true
  · rw [SparseSet.insert, if_pos present]
    exact settled
  · have offset : x - set.min < set.domain.length := by
      rw [wellFormed.domainLength]
      omega
    have place := settled.map_lt wellFormed offset below
    have beyond := WellFormed.size_le_map lower upper present
    have bound := wellFormed.mapLt _ offset
    rw [SparseSet.insert, if_neg present]
    refine ⟨?_, ?_⟩
    · show set.size + 1 ≤ _
      omega
    · intro i above inside
      have length : (set.exchange (set.map.getD (x - set.min) 0) set.size).domain.length =
          set.domain.length := length_swapEntries _ _ _
      rw [getD_domain_exchange bound (by omega), if_neg (by omega), if_neg (by omega)]
      exact settled.fixed i above (length ▸ inside)

theorem erase (settled : set.Settled bound) (wellFormed : set.WellFormed) :
    (set.erase x).Settled bound := by
  by_cases present : set.contains x = true
  · have inside := present
    simp only [SparseSet.contains, Bool.and_eq_true, decide_eq_true_eq] at inside
    have sizeLe := settled.sizeLe
    have fits := wellFormed.sizeLe
    rw [SparseSet.erase, if_pos present]
    refine ⟨?_, ?_⟩
    · show set.size - 1 ≤ _
      omega
    · intro i above place
      have length : (set.exchange (set.map.getD (x - set.min) 0) (set.size - 1)).domain.length =
          set.domain.length := length_swapEntries _ _ _
      rw [getD_domain_exchange (by omega) (by omega), if_neg (by omega), if_neg (by omega)]
      exact settled.fixed i above (length ▸ place)
  · rw [SparseSet.erase, if_neg present]
    exact settled

theorem extend (settled : set.Settled bound) : (set.extend newMax).Settled bound := by
  refine ⟨settled.sizeLe, ?_⟩
  intro i above inside
  simp only [SparseSet.extend, List.length_append, List.length_map, List.length_range] at inside ⊢
  rw [getD_grow]
  by_cases old : i < set.domain.length
  · rw [if_pos old]
    exact settled.fixed i above old
  · rw [if_neg old, if_pos inside]

end Settled

/-- Entries from `targetSize` on are popped as far as they have not moved. -/
theorem popBeyond_fixed {domain : List ℕ} {targetSize : ℕ} (target : targetSize = newMax + 1)
    (large : targetSize ≤ domain.length)
    (fixed : ∀ i, targetSize ≤ i → i < domain.length → domain.getD i 0 = i) :
    popBeyond targetSize newMax domain.reverse = (domain.take targetSize).reverse := by
  induction domain using List.reverseRecOn with
  | nil =>
      rw [target] at large
      exact absurd large (Nat.not_succ_le_zero newMax)
  | append_singleton front back ih =>
      rw [List.length_append, List.length_singleton] at large
      rw [List.reverse_append, List.reverse_singleton, List.singleton_append]
      have last : (front ++ [back]).getD front.length 0 = back := by
        simp [List.getD_eq_getElem?_getD]
      by_cases all : targetSize = front.length + 1
      · rw [popBeyond, if_neg (by rw [List.length_reverse]; omega), List.take_of_length_le]
        · rw [List.reverse_append, List.reverse_singleton, List.singleton_append]
        · rw [List.length_append, List.length_singleton]
          omega
      · have entry := fixed front.length (by omega) (by simp)
        rw [last] at entry
        rw [popBeyond, if_pos (by rw [List.length_reverse]; omega),
          List.take_append_of_le_length (by omega)]
        apply ih (by omega)
        intro i above inside
        have unmoved := fixed i above (by rw [List.length_append]; omega)
        rw [List.getD_append _ _ _ _ inside] at unmoved
        exact unmoved

/-- Shrinking drops the offsets beyond the new maximum. -/
theorem WellFormed.shrink (wellFormed : set.WellFormed) (settled : set.Settled bound)
    (fromZero : set.min = 0) (room : bound ≤ newMax + 1) (shrinks : newMax < set.max) :
    (set.shrink newMax).WellFormed ∧ (set.shrink newMax).elements = set.elements ∧
      (set.shrink newMax).min = 0 ∧ (set.shrink newMax).max = newMax ∧
      (set.shrink newMax).Settled bound := by
  have domainLength := wellFormed.domainLength
  have mapLength := wellFormed.mapLength
  rw [fromZero] at domainLength mapLength
  have sizeLe := settled.sizeLe
  have wide := settled.mono room
  have shrunk : set.shrink newMax =
      { set with
        max := newMax
        domain := set.domain.take (newMax + 1)
        map := set.map.take (newMax + 1) } := by
    have target : Nat.max set.size (newMax - set.min + 1) = newMax + 1 := by
      rw [fromZero]
      exact Nat.max_eq_right (by omega)
    have popped : (popBeyond (newMax + 1) newMax set.domain.reverse).reverse =
        set.domain.take (newMax + 1) := by
      rw [popBeyond_fixed rfl (by omega) wide.fixed, List.reverse_reverse]
    have length : (set.domain.take (newMax + 1)).length = newMax + 1 := by
      rw [List.length_take, domainLength]
      omega
    rw [SparseSet.shrink, target, popped, length, fromZero]
    simp only [Nat.add_zero, Nat.add_sub_cancel]
  have domainTake : ∀ i ≤ newMax,
      (set.domain.take (newMax + 1)).getD i 0 = set.domain.getD i 0 := by
    intro i le
    rw [List.getD_eq_getElem?_getD, List.getElem?_take_of_lt (by omega),
      List.getD_eq_getElem?_getD]
  have mapTake : ∀ v ≤ newMax, (set.map.take (newMax + 1)).getD v 0 = set.map.getD v 0 := by
    intro v le
    rw [List.getD_eq_getElem?_getD, List.getElem?_take_of_lt (by omega),
      List.getD_eq_getElem?_getD]
  rw [shrunk]
  refine ⟨?_, ?_, fromZero, rfl, ?_⟩
  · constructor
    · show set.min ≤ newMax
      omega
    · simp only [List.length_take]
      omega
    · simp only [List.length_take]
      omega
    · simp only [List.length_take]
      omega
    · intro i inside
      simp only [List.length_take] at inside ⊢
      rw [domainTake i (by omega)]
      have := wide.domain_lt wellFormed (i := i) (by omega) (by omega)
      omega
    · intro v inside
      simp only [List.length_take] at inside ⊢
      rw [mapTake v (by omega)]
      have := wide.map_lt wellFormed (x := v) (by omega) (by omega)
      omega
    · intro i inside
      simp only [List.length_take] at inside
      have := wide.domain_lt wellFormed (i := i) (by omega) (by omega)
      rw [domainTake i (by omega), mapTake _ (by omega)]
      exact wellFormed.mapDomain i (by omega)
    · intro v inside
      simp only [List.length_take] at inside
      have := wide.map_lt wellFormed (x := v) (by omega) (by omega)
      rw [mapTake v (by omega), domainTake _ (by omega)]
      exact wellFormed.domainMap v (by omega)
  · simp only [elements, List.take_take]
    rw [Nat.min_eq_left (by omega)]
  · refine ⟨sizeLe, ?_⟩
    intro i above inside
    simp only [List.length_take] at inside
    rw [domainTake i (by omega)]
    exact settled.fixed i above (by omega)

/-- A resize leaves the members alone if the new range has room for them. -/
theorem Settled.resize (settled : set.Settled bound) (wellFormed : set.WellFormed)
    (fromZero : set.min = 0) (room : bound ≤ newMax + 1) :
    (set.resize newMax).WellFormed ∧ (set.resize newMax).elements = set.elements ∧
      (set.resize newMax).min = 0 ∧ (set.resize newMax).max = newMax ∧
      (set.resize newMax).Settled bound := by
  by_cases shrinks : newMax < set.max
  · rw [SparseSet.resize, if_pos shrinks]
    exact wellFormed.shrink settled fromZero room shrinks
  · rcases wellFormed.resize (Nat.not_lt.mp shrinks) with ⟨resized, sameElements, sameMin, newMax⟩
    refine ⟨resized, sameElements, sameMin.trans fromZero, newMax, ?_⟩
    rw [SparseSet.resize, if_neg shrinks]
    split
    · exact settled.extend
    · exact settled

end SparseSet

end Talpf
