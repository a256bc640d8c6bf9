import Talpf.Library.Sorted
import Talpf.MessageSort.Writes

/-!
# The table of regions

The regions of `MessageSort` lie apart from each other, with gaps in between,
and contain the slots that refer to them.  Registering a slot merges all
regions that it overlaps or touches into the one with the smallest number; the
order of the multiset finds exactly these because the regions lie apart.
-/

namespace Talpf

namespace MessageSort

/-- Regions that neither overlap nor touch, in the order of their addresses. -/
def Apart (regions : List Region) : Prop :=
  regions.Pairwise fun a b => a.base + a.size < b.base

/-- A slot that is registered with a non-empty range. -/
def Registered (sort : MessageSort) (id : ℕ) (slot : Slot) : Prop :=
  sort.memslots[id]? = some slot ∧ 0 < slot.size

/-- The tables agree with each other. -/
structure Tables (sort : MessageSort) : Prop where
  apart : Apart sort.sortedRegions
  positive : ∀ r ∈ sort.sortedRegions, 0 < r.size
  addresses : ∀ r ∈ sort.sortedRegions, r.base + r.size ≤ sizeMax
  listed : ∀ r ∈ sort.sortedRegions, sort.regions[r.region]? = some r
  arrays : ∀ r ∈ sort.sortedRegions, ∃ array, sort.writes[r.region]? = some array ∧
    array.memory.length = r.size >>> sort.msgGrainPower
  sameLength : sort.writes.length = sort.regions.length
  slots : sort.memslots.length = sort.slotToRegion.length
  /-- A registered slot refers to a region that contains it. -/
  refers : ∀ id slot, sort.Registered id slot → ∃ r ∈ sort.sortedRegions, ∃ offset,
    sort.slotToRegion[id]? = some ⟨r.region, offset⟩ ∧ r.base + offset = slot.base ∧
      slot.base + slot.size ≤ r.base + r.size
  dirty : sort.dirty.WellFormed
  dirtyMin : sort.dirty.min = 0
  dirtyRoom : sort.regions.length ≤ sort.dirty.max + 1

/-- No array has marks. -/
def Unmarked (sort : MessageSort) : Prop :=
  ∀ (k : ℕ) (array : Writes), sort.writes[k]? = some array → array.Tidy ∧ array.Idle

theorem Tables.region_lt {sort : MessageSort} (tables : sort.Tables) {r : Region}
    (member : r ∈ sort.sortedRegions) : r.region < sort.regions.length :=
  (List.getElem?_eq_some_iff.mp (tables.listed r member)).1

/-- No two regions have the same number. -/
theorem Tables.eq_of_region {sort : MessageSort} (tables : sort.Tables) {r other : Region}
    (member : r ∈ sort.sortedRegions) (otherMember : other ∈ sort.sortedRegions)
    (same : r.region = other.region) : r = other := by
  have listed := tables.listed r member
  rw [same, tables.listed other otherMember, Option.some.injEq] at listed
  exact listed.symm

theorem tables_initial (msgGrainPower : ℕ) : (initial msgGrainPower).Tables where
  apart := List.Pairwise.nil
  positive := by simp [initial]
  addresses := by simp [initial]
  listed := by simp [initial]
  arrays := by simp [initial]
  sameLength := rfl
  slots := rfl
  refers := by simp [Registered, initial]
  dirty := SparseSet.wellFormed_reset (Nat.le_refl 0)
  dirtyMin := rfl
  dirtyRoom := by simp [initial]

theorem unmarked_initial (msgGrainPower : ℕ) : (initial msgGrainPower).Unmarked := by
  intro k array found
  simp [initial] at found

theorem precedes_iff (a b : Region) : precedes a b = true ↔ a.base + a.size < b.base :=
  decide_eq_true_iff

/-- How the regions lie relative to a new one. -/
structure Cut (sorted : List Region) (newRegion : Region) (before range after : List Region) :
    Prop where
  split : sorted = before ++ (range ++ after)
  before : ∀ r ∈ before, r.base + r.size < newRegion.base
  range : ∀ r ∈ range, newRegion.base ≤ r.base + r.size ∧ r.base ≤ newRegion.base + newRegion.size
  after : ∀ r ∈ after, newRegion.base + newRegion.size < r.base

theorem Cut.mem_iff {sorted before range after : List Region} {newRegion : Region}
    (cut : Cut sorted newRegion before range after) (r : Region) :
    r ∈ sorted ↔ r ∈ before ∨ r ∈ range ∨ r ∈ after := by
  rw [cut.split, List.mem_append, List.mem_append]

/-- `equal_range` finds exactly the regions that a new one overlaps or touches. -/
theorem equalRange_cut {sorted : List Region} (apart : Apart sorted) (newRegion : Region) :
    Cut sorted newRegion (equalRange sorted newRegion).1 (equalRange sorted newRegion).2.1
      (equalRange sorted newRegion).2.2 := by
  have lower : sorted.Pairwise fun a b =>
      precedes b newRegion = true → precedes a newRegion = true := by
    apply apart.imp
    intro a b gap endsBefore
    rw [precedes_iff] at endsBefore ⊢
    omega
  have upper : sorted.Pairwise fun a b =>
      (!precedes newRegion b) = true → (!precedes newRegion a) = true := by
    apply apart.imp
    intro a b gap overlaps
    rw [Bool.not_eq_true', ← Bool.not_eq_true, precedes_iff] at overlaps ⊢
    omega
  have rest := List.dropWhile_sublist (l := sorted) (precedes · newRegion)
  refine ⟨?_, ?_, ?_, ?_⟩
  · simp only [equalRange, List.takeWhile_append_dropWhile]
  · intro r member
    have holds : precedes r newRegion = true :=
      List.mem_takeWhile_imp (p := fun a => precedes a newRegion) member
    exact (precedes_iff _ _).mp holds
  · intro r member
    have notBefore := Sorted.not_of_mem_dropWhile lower ((List.takeWhile_sublist _).subset member)
    have notAfter := List.mem_takeWhile_imp member
    rw [← Bool.not_eq_true, precedes_iff] at notBefore
    rw [Bool.not_eq_true', ← Bool.not_eq_true, precedes_iff] at notAfter
    omega
  · intro r member
    have afterwards := Sorted.not_of_mem_dropWhile (upper.sublist rest) member
    rw [Bool.not_eq_false', precedes_iff] at afterwards
    exact afterwards

/-- The extent of a new region and those that it overlaps. -/
structure Merged (newRegion : Region) (range : List Region) (merged : Region) : Prop where
  base : merged.base ≤ newRegion.base ∧ ∀ r ∈ range, merged.base ≤ r.base
  baseOf : merged.base = newRegion.base ∨ ∃ r ∈ range, merged.base = r.base
  top : newRegion.base + newRegion.size ≤ merged.base + merged.size ∧
    ∀ r ∈ range, r.base + r.size ≤ merged.base + merged.size
  topOf : merged.base + merged.size = newRegion.base + newRegion.size ∨
    ∃ r ∈ range, merged.base + merged.size = r.base + r.size
  region : merged.region ≤ newRegion.region ∧ ∀ r ∈ range, merged.region ≤ r.region
  regionOf : merged.region = newRegion.region ∨ ∃ r ∈ range, merged.region = r.region

theorem extent_merged (newRegion : Region) (range : List Region) :
    Merged newRegion range (extent newRegion range) := by
  rcases Sorted.foldl_least Region.base range newRegion.base with ⟨baseLe, baseAll, baseOf⟩
  rcases Sorted.foldl_largest (fun r : Region => r.base + r.size) range
    (newRegion.base + newRegion.size) with ⟨topGe, topAll, topOf⟩
  rcases Sorted.foldl_least Region.region range newRegion.region with
    ⟨regionLe, regionAll, regionOf⟩
  have top : (extent newRegion range).base + (extent newRegion range).size =
      range.foldl (fun largest i => if i.base + i.size > largest then i.base + i.size else largest)
        (newRegion.base + newRegion.size) := by
    simp only [extent]
    omega
  refine ⟨⟨baseLe, baseAll⟩, baseOf, ?_, ?_, ⟨regionLe, regionAll⟩, regionOf⟩
  · rw [top]
    exact ⟨topGe, topAll⟩
  · rw [top]
    exact topOf

/-- The regions after merging lie apart again. -/
theorem Cut.apart {sorted before range after : List Region} {newRegion merged : Region}
    (cut : Cut sorted newRegion before range after) (apart : Apart sorted)
    (isMerged : Merged newRegion range merged) :
    (∀ r ∈ before, r.base + r.size < merged.base) ∧
      (∀ r ∈ after, merged.base + merged.size < r.base) ∧ Apart (before ++ merged :: after) := by
  rw [Apart, cut.split, List.pairwise_append, List.pairwise_append] at apart
  rcases apart with ⟨beforeApart, ⟨_, afterApart, rangeAfter⟩, beforeRest⟩
  have below : ∀ r ∈ before, r.base + r.size < merged.base := by
    intro r member
    rcases isMerged.baseOf with same | ⟨other, inRange, same⟩
    · rw [same]
      exact cut.before r member
    · rw [same]
      exact beforeRest r member other (List.mem_append_left _ inRange)
  have above : ∀ r ∈ after, merged.base + merged.size < r.base := by
    intro r member
    rcases isMerged.topOf with same | ⟨other, inRange, same⟩
    · rw [same]
      exact cut.after r member
    · rw [same]
      exact rangeAfter other inRange r member
  refine ⟨below, above, ?_⟩
  rw [Apart, List.pairwise_append, List.pairwise_cons]
  refine ⟨beforeApart, ⟨above, afterApart⟩, ?_⟩
  intro r member other otherMember
  rcases List.mem_cons.mp otherMember with rfl | behind
  · exact below r member
  · exact beforeRest r member other (List.mem_append_right _ behind)

/-- The merged region is inserted where the regions that it replaces were. -/
theorem insertRegion_eq {before after : List Region} {merged : Region}
    (below : ∀ r ∈ before, r.base + r.size < merged.base)
    (above : ∀ r ∈ after, merged.base + merged.size < r.base) :
    insertRegion (before ++ after) merged = before ++ merged :: after := by
  have holds : ∀ r ∈ before, (!precedes merged r) = true := by
    intro r member
    have := below r member
    rw [Bool.not_eq_true', ← Bool.not_eq_true, precedes_iff]
    omega
  have fails : ∀ r ∈ after, (!precedes merged r) = false := by
    intro r member
    rw [Bool.not_eq_false', precedes_iff]
    exact above r member
  rcases Sorted.takeWhile_append_of_cut holds fails with ⟨front, back⟩
  rw [insertRegion, front, back]

theorem subSize_of_le {a b : ℕ} (le : b ≤ a) (bounded : a ≤ sizeMax) : subSize a b = a - b := by
  simp only [subSize, sizeMax] at bounded ⊢
  omega

/-- A slot is redirected once, to the new region, if it refers to a region in the range. -/
theorem redirect_eq (range : List Region) (newRegion : Region) (base : ℕ) (entry : SlotToRegion) :
    redirect range newRegion base entry =
      if entry.region ∈ range.map Region.region then
        ⟨newRegion.region, subSize base newRegion.base⟩
      else entry := by
  have settled : ∀ rest : List Region, redirect rest newRegion base
      ⟨newRegion.region, subSize base newRegion.base⟩ =
        ⟨newRegion.region, subSize base newRegion.base⟩ := by
    intro rest
    induction rest with
    | nil => rfl
    | cons first rest ih =>
        simp only [redirect, List.foldl_cons, ite_self] at ih ⊢
        exact ih
  induction range with
  | nil => simp [redirect]
  | cons first rest ih =>
      by_cases here : entry.region = first.region
      · rw [if_pos (by simp [here])]
        have taken := settled rest
        simp only [redirect, List.foldl_cons, if_pos here] at taken ⊢
        exact taken
      · simp only [redirect, List.foldl_cons, List.map_cons, List.mem_cons, here, false_or] at ih ⊢
        exact ih

/-- The arrays of the regions in the range are returned, except the one that is kept. -/
theorem getElem?_discardWrites (range : List Region) (newRegion : Region) (writes : List Writes)
    (k : ℕ) : (discardWrites range newRegion writes)[k]? =
      if k ∈ range.map Region.region ∧ k ≠ newRegion.region then
        writes[k]?.map fun _ => .create 0
      else writes[k]? := by
  induction range generalizing writes with
  | nil => simp [discardWrites]
  | cons first rest ih =>
      simp only [discardWrites, List.foldl_cons] at ih ⊢
      rw [ih]
      by_cases kept : first.region = newRegion.region
      · rw [if_neg (not_not.mpr kept)]
        by_cases here : k = first.region
        · have same : k = newRegion.region := here.trans kept
          simp [same]
        · simp [here]
      · rw [if_pos kept, List.getElem?_set]
        by_cases here : first.region = k
        · subst here
          by_cases bound : first.region < writes.length
          · simp [kept, bound]
          · simp [kept, bound]
        · simp [here, Ne.symm here]

@[simp]
theorem length_discardWrites (range : List Region) (newRegion : Region) (writes : List Writes) :
    (discardWrites range newRegion writes).length = writes.length := by
  induction range generalizing writes with
  | nil => rfl
  | cons first rest ih =>
      simp only [discardWrites, List.foldl_cons] at ih ⊢
      rw [ih]
      split
      next => exact List.length_set
      next => rfl

/-- The set of dirty regions grows without a change of its members. -/
theorem growDirty_spec (count fuel : ℕ) {dirty : SparseSet} (wellFormed : dirty.WellFormed) :
    (growDirty count fuel dirty).WellFormed ∧
      (growDirty count fuel dirty).elements = dirty.elements ∧
      (growDirty count fuel dirty).min = dirty.min ∧
      (count ≤ dirty.max + fuel → count ≤ (growDirty count fuel dirty).max) := by
  induction fuel generalizing dirty with
  | zero => exact ⟨wellFormed, rfl, rfl, fun enough => enough⟩
  | succ fuel ih =>
      simp only [growDirty]
      split
      next =>
        have strictly : dirty.max + 1 ≤ Nat.max 1 (2 * dirty.max) := by
          show dirty.max + 1 ≤ max 1 (2 * dirty.max)
          omega
        rcases wellFormed.resize (Nat.le_of_succ_le strictly) with
          ⟨resized, sameElements, sameMin, newMax⟩
        rcases ih resized with ⟨grown, elements, min, enough⟩
        refine ⟨grown, elements.trans sameElements, min.trans sameMin, ?_⟩
        intro fuelSuffices
        apply enough
        rw [newMax]
        omega
      next fits => exact ⟨wellFormed, rfl, rfl, fun _ => Nat.le_of_not_lt fits⟩

/-- What `storeRegion` leaves behind. -/
structure Stored (sort : MessageSort) (merged : Region) (after : MessageSort) : Prop where
  memslots : after.memslots = sort.memslots
  slotToRegion : after.slotToRegion = sort.slotToRegion
  dirty : after.dirty = sort.dirty
  msgGrainPower : after.msgGrainPower = sort.msgGrainPower
  region : after.regions[merged.region]? = some merged
  otherRegions : ∀ k, k ≠ merged.region → after.regions[k]? = sort.regions[k]?
  array : ∃ array, after.writes[merged.region]? = some array ∧ array.Tidy ∧ array.Idle ∧
    array.memory.length = merged.size >>> sort.msgGrainPower
  otherArrays : ∀ k, k ≠ merged.region → after.writes[k]? = sort.writes[k]?
  sameLength : after.writes.length = after.regions.length
  longer : sort.regions.length ≤ after.regions.length
  length : after.regions.length ≤ sort.regions.length + 1

theorem shiftRight_le_sizeMax {size power : ℕ} (bounded : size ≤ sizeMax) :
    size >>> power ≤ sizeMax :=
  (Nat.shiftRight_le size power).trans bounded

/-- A region that overlaps no other one is appended with an array of its own. -/
theorem Tables.storeRegion_nil {sort : MessageSort} (tables : sort.Tables) {merged : Region}
    (itsRegion : merged.region = sort.regions.length) (bounded : merged.size ≤ sizeMax) :
    ∃ stored, sort.storeRegion merged [] = some stored ∧ Stored sort merged stored := by
  have stores : sort.storeRegion merged [] = some { sort with
      writes := sort.writes ++ [.create (merged.size >>> sort.msgGrainPower)]
      regions := sort.regions ++ [merged] } := by
    rw [MessageSort.storeRegion]
    rfl
  have others : ∀ {α : Type} (list : List α) (last : α) (k : ℕ), k ≠ list.length →
      (list ++ [last])[k]? = list[k]? := by
    intro α list last k differs
    rw [List.getElem?_append]
    split
    next => rfl
    next beyond =>
      rw [List.getElem?_eq_none (by simp only [List.length_singleton]; omega),
        List.getElem?_eq_none (by omega)]
  refine ⟨_, stores, rfl, rfl, rfl, rfl, ?_, ?_, ?_, ?_, ?_, ?_, ?_⟩
  · rw [itsRegion]
    simp
  · intro k differs
    exact others _ _ k (itsRegion ▸ differs)
  · refine ⟨.create (merged.size >>> sort.msgGrainPower), ?_,
      Writes.tidy_create (shiftRight_le_sizeMax bounded), Writes.idle_create _, ?_⟩
    · rw [itsRegion, ← tables.sameLength]
      simp
    · simp [Writes.create]
  · intro k differs
    rw [itsRegion, ← tables.sameLength] at differs
    exact others _ _ k differs
  · simp [tables.sameLength]
  · simp
  · simp

/-- The merged region replaces the one with the smallest number, whose array grows. -/
theorem Tables.storeRegion_member {sort : MessageSort} (tables : sort.Tables)
    (unmarked : sort.Unmarked) {range : List Region} {merged r : Region} (inRange : r ∈ range)
    (member : r ∈ sort.sortedRegions) (itsRegion : merged.region = r.region)
    (larger : r.size ≤ merged.size) (bounded : merged.size ≤ sizeMax) :
    ∃ stored, sort.storeRegion merged range = some stored ∧ Stored sort merged stored := by
  rcases tables.arrays r member with ⟨array, found, length⟩
  have grows : array.memory.length ≤ merged.size >>> sort.msgGrainPower := by
    rw [length, Nat.shiftRight_eq_div_pow, Nat.shiftRight_eq_div_pow]
    exact Nat.div_le_div_right larger
  rw [← itsRegion] at found
  rcases (unmarked _ _ found).2.resize grows with ⟨grown, resized, idle, newLength⟩
  have arrayBound : merged.region < sort.writes.length := (List.getElem?_eq_some_iff.mp found).1
  have regionBound : merged.region < sort.regions.length := by
    rw [← tables.sameLength]
    exact arrayBound
  have notEmpty : range.isEmpty = false :=
    List.isEmpty_eq_false_iff.mpr (List.ne_nil_of_mem inRange)
  have stores : sort.storeRegion merged range = some { sort with
      writes := sort.writes.set merged.region grown
      regions := sort.regions.set merged.region merged } := by
    simp only [MessageSort.storeRegion, notEmpty, Bool.false_eq_true, if_false, found, resized,
      Option.map_some]
  refine ⟨_, stores, rfl, rfl, rfl, rfl, ?_, ?_, ?_, ?_, ?_, ?_, ?_⟩
  · rw [List.getElem?_set_self regionBound]
  · intro k differs
    rw [List.getElem?_set_ne (Ne.symm differs)]
  · refine ⟨grown, List.getElem?_set_self arrayBound, ⟨?_, ?_, Or.inl idle⟩, idle, newLength⟩
    · rw [newLength]
      exact shiftRight_le_sizeMax bounded
    · intro i
      rw [idle.unmarked]
      exact Nat.zero_le _
  · intro k differs
    rw [List.getElem?_set_ne (Ne.symm differs)]
  · simp [tables.sameLength]
  · simp
  · simp

theorem Tables.storeRegion {sort : MessageSort} (tables : sort.Tables) (unmarked : sort.Unmarked)
    {base size : ℕ} {before range after : List Region} {merged : Region}
    (cut : Cut sort.sortedRegions ⟨sort.regions.length, base, size⟩ before range after)
    (isMerged : Merged ⟨sort.regions.length, base, size⟩ range merged)
    (bounded : merged.size ≤ sizeMax) :
    ∃ stored, sort.storeRegion merged range = some stored ∧ Stored sort merged stored := by
  cases range with
  | nil =>
      have itsRegion : merged.region = sort.regions.length := by
        rcases isMerged.regionOf with same | ⟨r, member, _⟩
        · exact same
        · cases member
      exact tables.storeRegion_nil itsRegion bounded
  | cons someone others =>
      have inSorted : ∀ r ∈ someone :: others, r ∈ sort.sortedRegions := fun r member =>
        (cut.mem_iff r).mpr (Or.inr (Or.inl member))
      -- the region with the smallest number is one of the range
      have oldest : ∃ r ∈ someone :: others, merged.region = r.region := by
        rcases isMerged.regionOf with same | found
        · have smaller := isMerged.region.2 someone List.mem_cons_self
          have bound := tables.region_lt (inSorted someone List.mem_cons_self)
          simp only at same
          omega
        · exact found
      rcases oldest with ⟨r, member, itsRegion⟩
      have larger : r.size ≤ merged.size := by
        have := isMerged.base.2 r member
        have := isMerged.top.2 r member
        omega
      exact tables.storeRegion_member unmarked member (inSorted r member) itsRegion larger bounded

/-- What `addRegister` leaves behind. -/
structure Registers (sort : MessageSort) (id base size : ℕ) (after : MessageSort) : Prop where
  tables : after.Tables
  unmarked : after.Unmarked
  memslots : after.memslots = sort.memslots.set id ⟨id, base, size⟩
  slotRange : after.slotToRegion.length = sort.slotToRegion.length
  regions : sort.regions.length ≤ after.regions.length
  elements : after.dirty.elements = sort.dirty.elements
  msgGrainPower : after.msgGrainPower = sort.msgGrainPower

/-- The regions outside of the range keep their numbers to themselves. -/
theorem Tables.outside {sort : MessageSort} (tables : sort.Tables) {base size : ℕ}
    {before range behind : List Region} {merged : Region}
    (cut : Cut sort.sortedRegions ⟨sort.regions.length, base, size⟩ before range behind)
    (isMerged : Merged ⟨sort.regions.length, base, size⟩ range merged) {r : Region}
    (member : r ∈ before ∨ r ∈ behind) :
    r.region ∉ range.map Region.region ∧ r.region ≠ merged.region := by
  have inSorted : r ∈ sort.sortedRegions := (cut.mem_iff r).mpr (by tauto)
  have notRange : ∀ other ∈ range, other.region ≠ r.region := by
    intro other otherMember same
    obtain rfl := tables.eq_of_region inSorted
      ((cut.mem_iff other).mpr (Or.inr (Or.inl otherMember))) same.symm
    rcases member with early | late
    · have := cut.before r early
      have := (cut.range r otherMember).1
      omega
    · have := cut.after r late
      have := (cut.range r otherMember).2
      omega
  constructor
  · intro inRange
    rcases List.mem_map.mp inRange with ⟨other, otherMember, same⟩
    exact notRange other otherMember same
  · intro same
    rcases isMerged.regionOf with fresh | ⟨other, otherMember, old⟩
    · have bound := tables.region_lt inSorted
      simp only at fresh
      omega
    · exact notRange other otherMember (same.trans old).symm

/-- A slot that refers to a region that contains it does so after it is redirected. -/
theorem Tables.redirect {sort : MessageSort} (tables : sort.Tables) {base size : ℕ}
    {before range behind : List Region} {merged : Region}
    (cut : Cut sort.sortedRegions ⟨sort.regions.length, base, size⟩ before range behind)
    (isMerged : Merged ⟨sort.regions.length, base, size⟩ range merged) {id : ℕ} {slot : Slot}
    (registered : sort.Registered id slot) :
    ∃ entry, sort.slotToRegion[id]? = some entry ∧ ∃ r ∈ before ++ merged :: behind, ∃ offset,
      redirect range merged slot.base entry = ⟨r.region, offset⟩ ∧ r.base + offset = slot.base ∧
        slot.base + slot.size ≤ r.base + r.size := by
  rcases tables.refers id slot registered with ⟨r, member, offset, refers, based, fits⟩
  refine ⟨⟨r.region, offset⟩, refers, ?_⟩
  rw [redirect_eq]
  have position := (cut.mem_iff r).mp member
  by_cases inside : r ∈ range
  · -- its region is merged
    have least := isMerged.base.2 r inside
    have largest := isMerged.top.2 r inside
    have address := tables.addresses r member
    refine ⟨merged, List.mem_append_right _ List.mem_cons_self, subSize slot.base merged.base,
      if_pos (List.mem_map_of_mem inside), ?_, by omega⟩
    rw [subSize_of_le (by omega) (by omega)]
    omega
  · have outer : r ∈ before ∨ r ∈ behind := by tauto
    refine ⟨r, ?_, offset, if_neg (tables.outside cut isMerged outer).1, based, fits⟩
    rw [List.mem_append, List.mem_cons]
    tauto

theorem Stored.unmarked {sort stored : MessageSort} {merged : Region}
    (storing : Stored sort merged stored) (unmarked : sort.Unmarked) (range : List Region)
    {k : ℕ} {array : Writes} (found : (discardWrites range merged stored.writes)[k]? = some array) :
    array.Tidy ∧ array.Idle := by
  rw [getElem?_discardWrites] at found
  split at found
  next =>
    rcases Option.map_eq_some_iff.mp found with ⟨_, _, rfl⟩
    exact ⟨Writes.tidy_create (Nat.zero_le _), Writes.idle_create 0⟩
  next =>
    by_cases isMergedRegion : k = merged.region
    · rcases storing.array with ⟨stored, storedFound, tidy, idle, _⟩
      rw [isMergedRegion, storedFound, Option.some.injEq] at found
      subst found
      exact ⟨tidy, idle⟩
    · rw [storing.otherArrays k isMergedRegion] at found
      exact unmarked k array found

section Inserting

variable {sort stored : MessageSort} {id base size : ℕ} {before range behind : List Region}
  {merged : Region}

/-- A region is the merged one or lies outside of the range. -/
theorem Cut.forall_insert {sorted : List Region} {newRegion : Region}
    (cut : Cut sorted newRegion before range behind) {P : Region → Prop}
    (others : ∀ r, r ∈ before ∨ r ∈ behind → r ∈ sorted → P r) (itself : P merged) :
    ∀ r ∈ before ++ merged :: behind, P r := by
  intro r member
  rw [List.mem_append, List.mem_cons] at member
  rcases member with early | rfl | late
  · exact others r (Or.inl early) ((cut.mem_iff r).mpr (Or.inl early))
  · exact itself
  · exact others r (Or.inr late) ((cut.mem_iff r).mpr (Or.inr (Or.inr late)))

theorem Tables.merged_le (tables : sort.Tables)
    (cut : Cut sort.sortedRegions ⟨sort.regions.length, base, size⟩ before range behind)
    (isMerged : Merged ⟨sort.regions.length, base, size⟩ range merged)
    (address : base + size ≤ sizeMax) : merged.base + merged.size ≤ sizeMax := by
  rcases isMerged.topOf with same | ⟨r, member, same⟩
  · rw [same]
    exact address
  · rw [same]
    exact tables.addresses r ((cut.mem_iff r).mpr (Or.inr (Or.inl member)))

theorem Tables.listed_insert (tables : sort.Tables)
    (cut : Cut sort.sortedRegions ⟨sort.regions.length, base, size⟩ before range behind)
    (isMerged : Merged ⟨sort.regions.length, base, size⟩ range merged)
    (storing : Stored sort merged stored) :
    ∀ r ∈ before ++ merged :: behind, stored.regions[r.region]? = some r := by
  refine cut.forall_insert (fun r outer member => ?_) storing.region
  rw [storing.otherRegions _ (tables.outside cut isMerged outer).2]
  exact tables.listed r member

theorem Tables.arrays_insert (tables : sort.Tables)
    (cut : Cut sort.sortedRegions ⟨sort.regions.length, base, size⟩ before range behind)
    (isMerged : Merged ⟨sort.regions.length, base, size⟩ range merged)
    (storing : Stored sort merged stored) : ∀ r ∈ before ++ merged :: behind,
      ∃ array, (discardWrites range merged stored.writes)[r.region]? = some array ∧
        array.memory.length = r.size >>> stored.msgGrainPower := by
  simp only [getElem?_discardWrites, storing.msgGrainPower]
  refine cut.forall_insert (fun r outer member => ?_) ?_
  · rcases tables.outside cut isMerged outer with ⟨notRange, notMerged⟩
    rw [if_neg fun discarded => notRange discarded.1, storing.otherArrays _ notMerged]
    exact tables.arrays r member
  · rw [if_neg fun discarded => discarded.2 rfl]
    rcases storing.array with ⟨array, found, _, _, length⟩
    exact ⟨array, found, length⟩

/-- The new slot refers to the merged region, and the others to the regions that contain them. -/
theorem Tables.refers_insert (tables : sort.Tables)
    (cut : Cut sort.sortedRegions ⟨sort.regions.length, base, size⟩ before range behind)
    (isMerged : Merged ⟨sort.regions.length, base, size⟩ range merged)
    (inRange : id < sort.memslots.length) (address : base + size ≤ sizeMax) {other : ℕ}
    {slot : Slot}
    (registered : Registered { sort with memslots := sort.memslots.set id ⟨id, base, size⟩ } other
      slot) :
    ∃ r ∈ before ++ merged :: behind, ∃ offset,
      ((sort.slotToRegion.mapIdx fun s entry => MessageSort.redirect range merged
          (((sort.memslots.set id ⟨id, base, size⟩)[s]?.map Slot.base).getD 0) entry).set id
        ⟨merged.region, subSize base merged.base⟩)[other]? = some ⟨r.region, offset⟩ ∧
      r.base + offset = slot.base ∧ slot.base + slot.size ≤ r.base + r.size := by
  have mergedBase : merged.base ≤ base := isMerged.base.1
  simp only [Registered] at registered
  by_cases itself : other = id
  · subst itself
    rw [List.getElem?_set_self inRange] at registered
    rcases registered with ⟨found, _⟩
    rw [Option.some.injEq] at found
    subst found
    have offset : subSize base merged.base = base - merged.base :=
      subSize_of_le mergedBase (by omega)
    refine ⟨merged, List.mem_append_right _ List.mem_cons_self, subSize base merged.base, ?_, ?_,
      isMerged.top.1⟩
    · rw [List.getElem?_set_self (by simpa [← tables.slots] using inRange)]
    · simp only [offset]
      omega
  · rw [List.getElem?_set_ne (Ne.symm itself)] at registered
    rcases tables.redirect cut isMerged registered with
      ⟨entry, refers, r, member, offset, redirected, based, fits⟩
    refine ⟨r, member, offset, ?_, based, fits⟩
    rw [List.getElem?_set_ne (Ne.symm itself), List.getElem?_mapIdx, refers,
      List.getElem?_set_ne (Ne.symm itself), registered.1, ← redirected]
    rfl

/-- There is room for the region that is registered. -/
theorem Tables.growDirty (tables : sort.Tables) : Tables { sort with
      dirty := growDirty sort.regions.length sort.regions.length sort.dirty } ∧
    sort.regions.length ≤
      (MessageSort.growDirty sort.regions.length sort.regions.length sort.dirty).max ∧
    (MessageSort.growDirty sort.regions.length sort.regions.length sort.dirty).elements =
      sort.dirty.elements := by
  rcases growDirty_spec sort.regions.length sort.regions.length tables.dirty with
    ⟨grown, sameElements, sameMin, room⟩
  exact ⟨{ tables with
    dirty := grown
    dirtyMin := sameMin.trans tables.dirtyMin
    dirtyRoom := Nat.le_succ_of_le (room (Nat.le_add_left _ _)) }, room (Nat.le_add_left _ _),
    sameElements⟩

end Inserting

/-- Registering a non-empty range under a slot number in range. -/
theorem Tables.addRegister {sort : MessageSort} (tables : sort.Tables) (unmarked : sort.Unmarked)
    {id base size : ℕ} (inRange : id < sort.memslots.length) (nonempty : 0 < size)
    (address : base + size ≤ sizeMax) :
    ∃ after, sort.addRegister id base size = some after ∧
      Registers sort id base size after := by
  have cut := equalRange_cut tables.apart ⟨sort.regions.length, base, size⟩
  generalize ranges : equalRange sort.sortedRegions ⟨sort.regions.length, base, size⟩ = found at cut
  rcases found with ⟨before, range, behind⟩
  have isMerged := extent_merged ⟨sort.regions.length, base, size⟩ range
  generalize extents : extent ⟨sort.regions.length, base, size⟩ range = merged at isMerged
  rcases cut.apart tables.apart isMerged with ⟨below, above, apart⟩
  simp only at cut isMerged below above apart
  have mergedTop := tables.merged_le cut isMerged address
  have mergedSize : base + size ≤ merged.base + merged.size := isMerged.top.1
  have mergedBase : merged.base ≤ base := isMerged.base.1
  rcases tables.growDirty with ⟨widened, room, sameElements⟩
  rcases widened.storeRegion unmarked cut isMerged (by omega) with ⟨stored, stores, storing⟩
  have memslots : stored.memslots = sort.memslots := storing.memslots
  have slotToRegion : stored.slotToRegion = sort.slotToRegion := storing.slotToRegion
  refine ⟨_, by simp only [MessageSort.addRegister, ranges, extents, stores, Option.bind_some]
                rw [if_pos ⟨by rw [memslots]; exact inRange,
                  by rw [slotToRegion, ← tables.slots]; exact inRange⟩], ?_⟩
  rw [memslots, slotToRegion, insertRegion_eq below above]
  have listed := widened.listed_insert cut isMerged storing
  have arrays := widened.arrays_insert cut isMerged storing
  refine ⟨?_, fun k array found => storing.unmarked unmarked range found, rfl, ?_,
    storing.longer, ?_, storing.msgGrainPower⟩
  · exact
      { apart := apart
        positive := cut.forall_insert (fun r _ member => tables.positive r member) (by omega)
        addresses := cut.forall_insert (fun r _ member => tables.addresses r member) mergedTop
        listed := listed
        arrays := arrays
        sameLength := by simp [storing.sameLength]
        slots := by simp [tables.slots]
        refers := fun _ _ registered =>
          tables.refers_insert cut isMerged inRange address registered
        dirty := by
          simp only [storing.dirty]
          exact widened.dirty
        dirtyMin := by
          simp only [storing.dirty]
          exact widened.dirtyMin
        dirtyRoom := by
          simp only [storing.dirty]
          exact storing.length.trans (Nat.succ_le_succ room) }
  · simp
  · simp only [storing.dirty]
    exact sameElements

end MessageSort

end Talpf
