import Mathlib.Data.List.Induction
import Talpf.SparseSet.IntSet

/-!
# Shrinking a set that has a history

`shrink` takes entries off the end of the permutation as long as they exceed the new
maximum.  The history of a set may have moved any offset to the end, so that this leaves a
permutation of a smaller range only if the entries taken off are the largest offsets.
-/

namespace Talpf.IntSet

/-- Pop entries off the end of an array while they exceed `newMax`. -/
def popBack (targetSize : ℕ) (newMax : ℤ) : (reversed : List ℕ) → List ℕ
  | [] => []
  | back :: front =>
      if front.length + 1 > targetSize ∧ (back : ℤ) > newMax then popBack targetSize newMax front
      else back :: front

/-- The size that `shrink` aims at. -/
def targetSize (set : IntSet) (newMax : ℤ) : ℕ := Nat.max set.size (newMax - set.min + 1).toNat

/-- Reduce the maximum of the range so that memory can be released. -/
def shrink (set : IntSet) (newMax : ℤ) : IntSet :=
  let domain := (popBack (set.targetSize newMax) newMax set.domain.reverse).reverse
  { set with
    max := domain.length + set.min - 1
    domain := domain
    map := set.map.takeD domain.length 0 }

/-- Change the maximum of the range. -/
def resize (set : IntSet) (faults : Faults) (newMax : ℤ) : IntSet × Bool :=
  if newMax < set.max then (set.shrink newMax, false)
  else if newMax > set.max then set.extend faults newMax
  else (set, false)

/-- The entries that `shrink` takes off the end of the permutation are the largest offsets. -/
def PopsLargest (set : IntSet) (newMax : ℤ) : Prop :=
  ∃ kept : ℕ, set.targetSize newMax ≤ kept ∧ kept ≤ set.domain.length ∧
    (kept = set.targetSize newMax ∨
      ∃ entry : ℕ, set.domain[kept - 1]? = some entry ∧ (entry : ℤ) ≤ newMax) ∧
    ∀ i entry : ℕ, kept ≤ i → set.domain[i]? = some entry → newMax < entry ∧ kept ≤ entry

variable {set : IntSet} {finite : FiniteSet} {x newMax : ℤ}

/-- Where popping stops. -/
theorem popBack_spec (newMax : ℤ) {target : ℕ} {domain : List ℕ}
    (large : target ≤ domain.length) :
    ∃ kept, popBack target newMax domain.reverse = (domain.take kept).reverse ∧
      target ≤ kept ∧ kept ≤ domain.length ∧
      (kept = target ∨ ∃ entry, domain[kept - 1]? = some entry ∧ (entry : ℤ) ≤ newMax) ∧
      ∀ i entry, kept ≤ i → domain[i]? = some entry → newMax < entry := by
  induction domain using List.reverseRecOn with
  | nil =>
      refine ⟨0, rfl, large, Nat.le_refl _, .inl (Nat.le_zero.mp large).symm, ?_⟩
      intro i entry _ found
      cases found
  | append_singleton front back ih =>
      rw [List.length_append, List.length_singleton] at large
      have last : (front ++ [back])[front.length]? = some back := by simp
      have reversed : (front ++ [back]).reverse = back :: front.reverse := by simp
      by_cases pops : front.length + 1 > target ∧ (back : ℤ) > newMax
      · rcases ih (Nat.le_of_lt_succ pops.1) with ⟨kept, popped, above, below, stops, beyond⟩
        refine ⟨kept, ?_, above, ?_, ?_, ?_⟩
        · rw [reversed, popBack, if_pos (by rwa [List.length_reverse]), popped,
            List.take_append_of_le_length below]
        · rw [List.length_append]
          exact Nat.le_add_right_of_le below
        · rcases stops with same | ⟨entry, found, small⟩
          · exact .inl same
          · refine .inr ⟨entry, ?_, small⟩
            rcases List.getElem?_eq_some_iff.mp found with ⟨inside, _⟩
            rw [List.getElem?_append_left inside]
            exact found
        · intro i entry after found
          by_cases inside : i < front.length
          · rw [List.getElem?_append_left inside] at found
            exact beyond i entry after found
          · rcases List.getElem?_eq_some_iff.mp found with ⟨bound, _⟩
            rw [List.length_append, List.length_singleton] at bound
            obtain rfl : i = front.length := by omega
            rw [last, Option.some.injEq] at found
            exact found ▸ pops.2
      · refine ⟨front.length + 1, ?_, large, by simp, ?_, ?_⟩
        · rw [reversed, popBack, if_neg (by rwa [List.length_reverse]), List.take_of_length_le]
          · exact reversed.symm
          · simp
        · by_cases all : front.length + 1 = target
          · exact .inl all
          · refine .inr ⟨back, last, ?_⟩
            omega
        · intro i entry after found
          rcases List.getElem?_eq_some_iff.mp found with ⟨bound, _⟩
          rw [List.length_append, List.length_singleton] at bound
          omega

theorem Tracks.target_le (tracks : set.Tracks finite) (upper : newMax ≤ set.max) :
    set.targetSize newMax ≤ set.domain.length := by
  have sizeLe : set.size ≤ set.domain.length := tracks.valid.wellFormed.sizeLe
  have length := tracks.valid.length
  refine Nat.max_le.mpr ⟨sizeLe, ?_⟩
  omega

/-- What is left of the arrays. -/
theorem Tracks.shrink_eq (tracks : set.Tracks finite) (upper : newMax ≤ set.max) :
    ∃ kept : ℕ, set.shrink newMax = { set with
        max := kept + set.min - 1
        domain := set.domain.take kept
        map := set.map.take kept } ∧
      set.targetSize newMax ≤ kept ∧ kept ≤ set.domain.length ∧
      (set.PopsLargest newMax ↔
        ∀ i entry : ℕ, kept ≤ i → set.domain[i]? = some entry → kept ≤ entry) := by
  rcases popBack_spec newMax (tracks.target_le upper) with
    ⟨kept, popped, above, below, stops, beyond⟩
  refine ⟨kept, ?_, above, below, ?_⟩
  · have length : (set.domain.take kept).length = kept := List.length_take_of_le below
    have inside : kept ≤ set.map.length := tracks.valid.mapLength.symm ▸ below
    rw [shrink, popped, List.reverse_reverse, length, List.takeD_eq_take _ inside]
  · constructor
    · rintro ⟨kept', above', below', stops', beyond'⟩
      have same : kept' = kept := by
        rcases Nat.lt_trichotomy kept' kept with less | same | more
        · rcases stops with start | ⟨entry, found, small⟩
          · omega
          · have large := (beyond' _ _ (by omega) found).1
            omega
        · exact same
        · rcases stops' with start | ⟨entry, found, small⟩
          · omega
          · have large := beyond _ _ (by omega) found
            omega
      intro i entry after found
      exact same ▸ (beyond' i entry (same.symm ▸ after) found).2
    · intro largest
      exact ⟨kept, above, below, stops, fun i entry after found =>
        ⟨beyond i entry after found, largest i entry after found⟩⟩

/-- If the entries from `kept` on are the largest offsets, the others are the smallest ones. -/
theorem perm_take {domain : List ℕ} {kept : ℕ}
    (permutation : domain.Perm (List.range domain.length)) (below : kept ≤ domain.length)
    (largest : ∀ i entry : ℕ, kept ≤ i → domain[i]? = some entry → kept ≤ entry) :
    (domain.take kept).Perm (List.range kept) := by
  have nodup : domain.Nodup := permutation.nodup_iff.mpr List.nodup_range
  have rest : (domain.drop kept).Perm (List.range' kept (domain.length - kept)) := by
    have restNodup : (domain.drop kept).Nodup := nodup.sublist (List.drop_sublist _ _)
    refine (restNodup.subperm fun entry member => ?_).perm_of_length_le (by simp)
    rcases List.mem_iff_getElem?.mp member with ⟨i, found⟩
    rw [List.getElem?_drop] at found
    have large := largest _ _ (Nat.le_add_right kept i) found
    have small := List.mem_range.mp (permutation.mem_iff.mp (List.mem_of_getElem? found))
    rw [List.mem_range'_1]
    omega
  have split : List.range domain.length =
      List.range kept ++ List.range' kept (domain.length - kept) := by
    have joined := List.range'_append_1 (s := 0) (m := kept) (n := domain.length - kept)
    rw [Nat.zero_add, Nat.add_sub_cancel' below] at joined
    rw [List.range_eq_range', List.range_eq_range', joined]
  rw [← List.perm_append_right_iff (List.range' kept (domain.length - kept)), ← split]
  refine (rest.symm.append_left _).trans ?_
  rw [List.take_append_drop]
  exact permutation

theorem perm_take_iff {domain : List ℕ} {kept : ℕ}
    (permutation : domain.Perm (List.range domain.length)) (below : kept ≤ domain.length) :
    (domain.take kept).Perm (List.range kept) ↔
      ∀ i entry : ℕ, kept ≤ i → domain[i]? = some entry → kept ≤ entry := by
  refine ⟨fun taken i entry after found => ?_, perm_take permutation below⟩
  have nodup : domain.Nodup := permutation.nodup_iff.mpr List.nodup_range
  by_contra small
  have member : entry ∈ domain.take kept :=
    taken.mem_iff.mpr (List.mem_range.mpr (Nat.lt_of_not_le small))
  rcases List.mem_iff_getElem?.mp member with ⟨j, found'⟩
  rcases List.getElem?_eq_some_iff.mp found' with ⟨inside, _⟩
  have early : j < kept := by
    rw [List.length_take] at inside
    omega
  rw [List.getElem?_take_of_lt early] at found'
  rcases List.getElem?_eq_some_iff.mp found with ⟨bound, _⟩
  have same : i = j := (List.getElem?_inj bound nodup).mp (found.trans found'.symm)
  omega

/-- A set that keeps the smallest offsets is a set for the smaller range. -/
theorem Tracks.truncated (tracks : set.Tracks finite) {kept : ℕ} (some : 0 < kept)
    (below : kept ≤ set.domain.length) (room : set.size ≤ kept)
    (permutation : (set.domain.take kept).Perm (List.range kept)) :
    ({ set with
      max := kept + set.min - 1
      domain := set.domain.take kept
      map := set.map.take kept } : IntSet).Tracks
        { finite with max := kept + set.min - 1 } := by
  have wellFormed := tracks.valid.wellFormed
  have lengths : set.map.length = set.domain.length := tracks.valid.mapLength
  have length := tracks.valid.length
  have domainTake (i : ℕ) (inside : i < kept) :
      (set.domain.take kept).getD i 0 = set.domain.getD i 0 := by
    rw [List.getD_eq_getElem?_getD, List.getElem?_take_of_lt inside, List.getD_eq_getElem?_getD]
  have mapTake (v : ℕ) (inside : v < kept) :
      (set.map.take kept).getD v 0 = set.map.getD v 0 := by
    rw [List.getD_eq_getElem?_getD, List.getElem?_take_of_lt inside, List.getD_eq_getElem?_getD]
  have domainLength : (set.domain.take kept).length = kept := List.length_take_of_le below
  have mapLength : (set.map.take kept).length = kept :=
    List.length_take_of_le (lengths.symm ▸ below)
  have domainLt (i : ℕ) (inside : i < kept) : set.domain.getD i 0 < kept := by
    have bound : i < (set.domain.take kept).length := domainLength.symm ▸ inside
    rw [← domainTake i inside, List.getD_eq_getElem _ _ bound]
    exact List.mem_range.mp (permutation.mem_iff.mp (List.getElem_mem bound))
  have mapLt (v : ℕ) (inside : v < kept) : set.map.getD v 0 < kept := by
    have found := permutation.mem_iff.mpr (List.mem_range.mpr inside)
    rcases List.mem_iff_getElem.mp found with ⟨i, bound, rfl⟩
    rw [domainLength] at bound
    have back : set.map.getD (set.domain.getD i 0) 0 = i :=
      wellFormed.mapDomain i (Nat.lt_of_lt_of_le bound below)
    rw [← List.getD_eq_getElem _ 0, domainTake i bound, back]
    exact bound
  have range : ((kept : ℤ) + set.min - 1 - set.min).toNat - 0 + 1 = kept := by omega
  have elements : (set.domain.take kept).take set.size = set.domain.take set.size := by
    rw [List.take_take, Nat.min_eq_left room]
  refine ⟨⟨by show set.min ≤ (kept : ℤ) + set.min - 1; omega, ?_⟩, tracks.min, rfl, fun y => ?_⟩
  · refine ⟨Nat.zero_le _, domainLength.trans range.symm, mapLength.trans range.symm,
      room.trans_eq domainLength.symm, ?_, ?_, ?_, ?_⟩
    · intro i inside
      have inside : i < kept := inside.trans_eq domainLength
      exact ((domainTake i inside).trans_lt (domainLt i inside)).trans_eq domainLength.symm
    · intro v inside
      have inside : v < kept := inside.trans_eq domainLength
      exact ((mapTake v inside).trans_lt (mapLt v inside)).trans_eq domainLength.symm
    · intro i inside
      have inside : i < kept := inside.trans_eq domainLength
      show (set.map.take kept).getD ((set.domain.take kept).getD i 0) 0 = i
      rw [domainTake i inside, mapTake _ (domainLt i inside)]
      exact wellFormed.mapDomain i (Nat.lt_of_lt_of_le inside below)
    · intro v inside
      have inside : v < kept := inside.trans_eq domainLength
      show (set.domain.take kept).getD ((set.map.take kept).getD v 0) 0 = v
      rw [mapTake v inside, domainTake _ (mapLt v inside)]
      exact wellFormed.domainMap v (Nat.lt_of_lt_of_le inside below)
  · show y ∈ finite.members ↔ (set.min ≤ y ∧ y ≤ (kept : ℤ) + set.min - 1) ∧
      set.offset y ∈ (set.domain.take kept).take set.size
    rw [tracks.members, elements]
    constructor
    · rintro ⟨⟨lower, _⟩, member⟩
      have listed : set.offset y ∈ set.domain.take kept :=
        (List.take_subset_take_left set.domain room) member
      have small := List.mem_range.mp (permutation.mem_iff.mp listed)
      unfold offset at small
      exact ⟨⟨lower, by omega⟩, member⟩
    · rintro ⟨⟨lower, upper⟩, member⟩
      exact ⟨⟨lower, by omega⟩, member⟩

/-- Shrinking keeps the set exactly if it takes the largest offsets off. -/
theorem Tracks.shrink_iff (tracks : set.Tracks finite) (lower : set.min ≤ newMax)
    (upper : newMax ≤ set.max) :
    ((set.shrink newMax).Represents { finite with max := (set.shrink newMax).max } ↔
      set.PopsLargest newMax) ∧
    (set.PopsLargest newMax →
      (set.shrink newMax).Tracks { finite with max := (set.shrink newMax).max }) := by
  rcases tracks.shrink_eq upper with ⟨kept, shrunk, above, below, pops⟩
  have room : set.size ≤ kept := Nat.le_trans (Nat.le_max_left _ _) above
  have some : 0 < kept := by
    refine Nat.lt_of_lt_of_le ?_ above
    refine Nat.lt_of_lt_of_le ?_ (Nat.le_max_right _ _)
    omega
  have taken := perm_take_iff tracks.valid.permutation below
  have keeps (largest : set.PopsLargest newMax) :
      (set.shrink newMax).Tracks { finite with max := (set.shrink newMax).max } := by
    rw [shrunk]
    exact tracks.truncated some below room (taken.mpr (pops.mp largest))
  refine ⟨⟨fun represents => ?_, fun largest => (keeps largest).represents⟩, keeps⟩
  have permutation := represents.permutation
  rw [shrunk] at permutation
  have length : (set.domain.take kept).length = kept := List.length_take_of_le below
  change (set.domain.take kept).Perm (List.range (set.domain.take kept).length) at permutation
  rw [length] at permutation
  exact pops.mpr (taken.mp permutation)

/-- All operations that change a set. -/
inductive ResizeOp where
  | op (op : Op)
  | shrink (newMax : ℤ)
  | resize (faults : Faults) (newMax : ℤ)
deriving DecidableEq, Repr

/-- An operation on a sparse set and on what it stands for; the maximum that results from a change
of the range is up to the sparse set. -/
def ResizeStep (before : IntSet × FiniteSet) (op : ResizeOp) (after : IntSet × FiniteSet) : Prop :=
  match op with
  | .op op => Step before op after
  | .shrink newMax =>
      after.1 = before.1.shrink newMax ∧ after.2 = { before.2 with max := after.1.max }
  | .resize faults newMax =>
      after.1 = (before.1.resize faults newMax).1 ∧ after.2 = { before.2 with max := after.1.max }

/-- What the operations assert. -/
def Asserts (sets : IntSet × FiniteSet) : ResizeOp → Prop
  | .op op => sets.2.Permits op
  | .shrink newMax => sets.2.min ≤ newMax ∧ newMax ≤ sets.2.max
  | .resize _ newMax => sets.2.min ≤ newMax

/-- Whenever a set shrinks, it takes the largest offsets off. -/
def Shrinks (sets : IntSet × FiniteSet) : ResizeOp → Prop
  | .op _ => True
  | .shrink newMax => sets.1.PopsLargest newMax
  | .resize _ newMax => newMax < sets.2.max → sets.1.PopsLargest newMax

/-- The sets that operations make from a new set for the range `[min, max]`. -/
def ResizeRun (min max : ℤ) (set : IntSet) (finite : FiniteSet) : Prop :=
  Transition.Reachable ResizeStep (fun sets op => Asserts sets op ∧ Shrinks sets op)
    (create min max, ⟨min, max, ∅⟩) (set, finite)

theorem Tracks.resize (tracks : set.Tracks finite) (faults : Faults) (lower : finite.min ≤ newMax)
    (largest : newMax < finite.max → set.PopsLargest newMax) :
    (set.resize faults newMax).1.Tracks
      { finite with max := (set.resize faults newMax).1.max } := by
  rw [tracks.min] at lower
  rw [tracks.max] at largest
  have unchanged : set.Tracks { finite with max := set.max } := by
    rw [← tracks.max]
    exact tracks
  by_cases shrinks : newMax < set.max
  · rw [IntSet.resize, if_pos shrinks]
    exact (tracks.shrink_iff lower (Int.le_of_lt shrinks)).2 (largest shrinks)
  · by_cases grows : newMax > set.max
    · rw [IntSet.resize, if_neg shrinks, if_pos grows]
      rcases tracks.valid.extend_cases faults grows with failed | done
      · rw [failed]
        exact unchanged
      · rw [done]
        exact tracks.extend grows
    · rw [IntSet.resize, if_neg shrinks, if_neg grows]
      exact unchanged

theorem ResizeRun.tracks {min max : ℤ} (ordered : min ≤ max) (run : ResizeRun min max set finite) :
    set.Tracks finite := by
  let Holds (sets : IntSet × FiniteSet) : Prop := sets.1.Tracks sets.2
  have initially : Holds (create min max, ⟨min, max, ∅⟩) := by
    show (create min max).Tracks ⟨min, max, ∅⟩
    rw [create_eq min max ordered]
    exact tracks_of_range ordered
  suffices holds : Holds (set, finite) from holds
  refine run.invariant initially ?_
  rintro ⟨before, finite⟩ op ⟨after, finite'⟩ tracks ⟨legal, largest⟩ taken
  cases op with
  | op op =>
      rcases taken with ⟨thrown, performed, rfl⟩
      rcases tracks.perform legal with ⟨set, flag, result, tracks', _⟩
      rw [performed] at result
      rw [Option.some.injEq, Prod.mk.injEq] at result
      rcases result with ⟨rfl, rfl⟩
      exact tracks'
  | shrink newMax =>
      rcases taken with ⟨rfl, bounded⟩
      obtain rfl : finite' = { finite with max := (before.shrink newMax).max } := bounded
      have range := tracks.range legal
      exact (tracks.shrink_iff range.1 range.2).2 largest
  | resize faults newMax =>
      rcases taken with ⟨rfl, bounded⟩
      obtain rfl : finite' = { finite with max := (before.resize faults newMax).1.max } := bounded
      exact tracks.resize faults legal largest

end Talpf.IntSet
