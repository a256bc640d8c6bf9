import Mathlib.Data.List.Basic
import Mathlib.Data.List.GetD
import Mathlib.Data.List.Nodup

/-!
# Sparse sets

A set of numbers in a range `[min, max]` that is kept, after Briggs and
Torczon, as a permutation `domain` of the offsets of the range together with
its inverse `map`; the members are the first `size` entries of the
permutation.  Insertion and removal swap two entries of both arrays.  The order
in which the members are enumerated therefore depends on the history of the
set, but on nothing outside of the first `size` entries.
-/

namespace Talpf

/-- Exchange two entries of an array. -/
def swapEntries (entries : List ℕ) (a b : ℕ) : List ℕ :=
  (entries.set a (entries.getD b 0)).set b (entries.getD a 0)

@[simp]
theorem length_swapEntries (entries : List ℕ) (a b : ℕ) :
    (swapEntries entries a b).length = entries.length := by
  simp [swapEntries]

theorem getD_swapEntries {entries : List ℕ} {a b : ℕ} (aBound : a < entries.length)
    (bBound : b < entries.length) (i : ℕ) :
    (swapEntries entries a b).getD i 0 =
      if i = b then entries.getD a 0 else if i = a then entries.getD b 0
      else entries.getD i 0 := by
  simp only [swapEntries, List.getD_eq_getElem?_getD]
  grind

/-- A sparse set with members in the range `[min, max]`. -/
structure SparseSet where
  min : ℕ
  max : ℕ
  size : ℕ
  domain : List ℕ
  map : List ℕ
deriving DecidableEq, Repr

namespace SparseSet

/-- Empty the set and reallocate it for the range `[min, max]`. -/
def reset (min max : ℕ) : SparseSet where
  min := min
  max := max
  size := 0
  domain := List.range (max - min + 1)
  map := List.range (max - min + 1)

/-- Extend the range with a new maximum. -/
def extend (set : SparseSet) (newMax : ℕ) : SparseSet :=
  let oldSize := set.domain.length
  let newSize := newMax - set.min + 1
  { set with
    max := newMax
    domain := set.domain ++ (List.range (newSize - oldSize)).map (oldSize + ·)
    map := set.map ++ (List.range (newSize - oldSize)).map (oldSize + ·) }

/-- Pop entries off the back of the permutation while they lie beyond `newMax`. -/
def popBeyond (targetSize newMax : ℕ) (reversed : List ℕ) : List ℕ :=
  match reversed with
  | [] => []
  | back :: front =>
      if front.length + 1 > targetSize ∧ back > newMax then popBeyond targetSize newMax front
      else back :: front

/-- Reduce the maximum of the range so that memory can be released. -/
def shrink (set : SparseSet) (newMax : ℕ) : SparseSet :=
  let targetSize := Nat.max set.size (newMax - set.min + 1)
  let domain := (popBeyond targetSize newMax set.domain.reverse).reverse
  { set with
    max := domain.length + set.min - 1
    domain := domain
    map := set.map.take domain.length }

/-- Change the maximum of the range. -/
def resize (set : SparseSet) (newMax : ℕ) : SparseSet :=
  if newMax < set.max then set.shrink newMax
  else if newMax > set.max then set.extend newMax
  else set

/-- Remove all elements. -/
def clear (set : SparseSet) : SparseSet := { set with size := 0 }

/-- Whether the set is empty. -/
def empty (set : SparseSet) : Bool := set.size == 0

/-- Whether the set contains the element `x`. -/
def contains (set : SparseSet) (x : ℕ) : Bool :=
  decide (set.min ≤ x) && decide (x ≤ set.max) && decide (set.map.getD (x - set.min) 0 < set.size)

/-- Exchange the entries `a` and `b` of the permutation and repair its inverse. -/
def exchange (set : SparseSet) (a b : ℕ) : SparseSet :=
  let domain := swapEntries set.domain a b
  { set with
    domain := domain
    map := swapEntries set.map (domain.getD a 0) (domain.getD b 0) }

/-- Add `x` to the set, if it was not already there. -/
def insert (set : SparseSet) (x : ℕ) : SparseSet :=
  if set.contains x then set
  else
    let a := set.map.getD (x - set.min) 0
    let b := set.size
    { set.exchange a b with size := set.size + 1 }

/-- Remove `x` from the set, if it was in there. -/
def erase (set : SparseSet) (x : ℕ) : SparseSet :=
  if set.contains x then
    let size := set.size - 1
    let a := set.map.getD (x - set.min) 0
    let b := size
    { set.exchange a b with size := size }
  else set

/-- What iteration from `begin()` to `end()` visits, in this order. -/
def elements (set : SparseSet) : List ℕ := set.domain.take set.size

/-- `domain` and `map` are inverse permutations of the offsets of the range. -/
structure WellFormed (set : SparseSet) : Prop where
  ordered : set.min ≤ set.max
  domainLength : set.domain.length = set.max - set.min + 1
  mapLength : set.map.length = set.max - set.min + 1
  sizeLe : set.size ≤ set.domain.length
  domainLt : ∀ i < set.domain.length, set.domain.getD i 0 < set.domain.length
  mapLt : ∀ v < set.domain.length, set.map.getD v 0 < set.domain.length
  mapDomain : ∀ i < set.domain.length, set.map.getD (set.domain.getD i 0) 0 = i
  domainMap : ∀ v < set.domain.length, set.domain.getD (set.map.getD v 0) 0 = v

theorem wellFormed_reset {min max : ℕ} (ordered : min ≤ max) : (reset min max).WellFormed where
  ordered := ordered
  domainLength := by simp [reset]
  mapLength := by simp [reset]
  sizeLe := by simp [reset]
  domainLt := by simp only [reset, List.getD_eq_getElem?_getD]; grind
  mapLt := by simp only [reset, List.getD_eq_getElem?_getD]; grind
  mapDomain := by simp only [reset, List.getD_eq_getElem?_getD]; grind
  domainMap := by simp only [reset, List.getD_eq_getElem?_getD]; grind

@[simp]
theorem elements_reset (min max : ℕ) : (reset min max).elements = [] := by
  simp [reset, elements]

theorem WellFormed.clear {set : SparseSet} (wellFormed : set.WellFormed) :
    set.clear.WellFormed where
  ordered := wellFormed.ordered
  domainLength := wellFormed.domainLength
  mapLength := wellFormed.mapLength
  sizeLe := by simp [SparseSet.clear]
  domainLt := wellFormed.domainLt
  mapLt := wellFormed.mapLt
  mapDomain := wellFormed.mapDomain
  domainMap := wellFormed.domainMap

@[simp]
theorem elements_clear (set : SparseSet) : set.clear.elements = [] := by
  simp [SparseSet.clear, elements]

theorem WellFormed.length_elements {set : SparseSet} (wellFormed : set.WellFormed) :
    set.elements.length = set.size := by
  have := wellFormed.sizeLe
  simp [elements, this]

theorem WellFormed.empty_iff {set : SparseSet} (wellFormed : set.WellFormed) :
    set.empty = true ↔ set.elements = [] := by
  rw [← List.length_eq_zero_iff, wellFormed.length_elements]
  simp [SparseSet.empty]

theorem getD_elements (set : SparseSet) {i : ℕ} (bound : i < set.size) :
    set.elements.getD i 0 = set.domain.getD i 0 := by
  simp [elements, List.getD_eq_getElem?_getD, bound]

theorem WellFormed.mem_elements {set : SparseSet} (wellFormed : set.WellFormed) {v : ℕ} :
    v ∈ set.elements ↔ v < set.domain.length ∧ set.map.getD v 0 < set.size := by
  have sizeLe := wellFormed.sizeLe
  constructor
  · intro member
    rcases List.mem_iff_getElem.mp member with ⟨i, bound, rfl⟩
    have iSize : i < set.size := by rw [← wellFormed.length_elements]; exact bound
    have entry : set.elements[i] = set.domain.getD i 0 := by
      rw [← getD_elements set iSize, List.getD_eq_getElem _ _ bound]
    rw [entry]
    exact ⟨wellFormed.domainLt i (by omega),
      by rw [wellFormed.mapDomain i (by omega)]; exact iSize⟩
  · rintro ⟨bound, inside⟩
    have entry := wellFormed.domainMap v bound
    rw [← getD_elements set inside] at entry
    have position : set.map.getD v 0 < set.elements.length := by
      rw [wellFormed.length_elements]; exact inside
    rw [List.getD_eq_getElem _ _ position] at entry
    exact List.mem_iff_getElem.mpr ⟨_, position, entry⟩

/-- Membership is what the enumeration shows, up to the offset of the range. -/
theorem WellFormed.contains_iff {set : SparseSet} (wellFormed : set.WellFormed) {x : ℕ}
    (lower : set.min ≤ x) (upper : x ≤ set.max) :
    set.contains x = true ↔ x - set.min ∈ set.elements := by
  have := wellFormed.domainLength
  rw [wellFormed.mem_elements]
  simp only [SparseSet.contains, Bool.and_eq_true, decide_eq_true_eq]
  constructor
  · rintro ⟨_, inside⟩
    exact ⟨by omega, inside⟩
  · rintro ⟨_, inside⟩
    exact ⟨⟨lower, upper⟩, inside⟩

/-- Exchanging two entries keeps the two arrays inverse to each other. -/
theorem WellFormed.exchange {set : SparseSet} (wellFormed : set.WellFormed) {a b : ℕ}
    (aBound : a < set.domain.length) (bBound : b < set.domain.length) :
    (set.exchange a b).WellFormed := by
  rcases wellFormed with ⟨ordered, domainLength, mapLength, sizeLe, domainLt, mapLt,
    mapDomain, domainMap⟩
  have lengths : set.map.length = set.domain.length := by omega
  have va := domainLt a aBound
  have vb := domainLt b bBound
  have entryA : (swapEntries set.domain a b).getD a 0 = set.domain.getD b 0 := by
    rw [getD_swapEntries aBound bBound]
    split <;> simp_all
  have entryB : (swapEntries set.domain a b).getD b 0 = set.domain.getD a 0 := by
    rw [getD_swapEntries aBound bBound]
    simp
  have newDomain := getD_swapEntries aBound bBound
  have newMap : ∀ v, (swapEntries set.map (set.domain.getD b 0) (set.domain.getD a 0)).getD v 0 =
      if v = set.domain.getD a 0 then set.map.getD (set.domain.getD b 0) 0
      else if v = set.domain.getD b 0 then set.map.getD (set.domain.getD a 0) 0
      else set.map.getD v 0 :=
    getD_swapEntries (by omega) (by omega)
  have mapA := mapDomain a aBound
  have mapB := mapDomain b bBound
  refine ⟨ordered, by simpa [SparseSet.exchange] using domainLength,
    by simpa [SparseSet.exchange] using mapLength, by simpa [SparseSet.exchange] using sizeLe,
    ?_, ?_, ?_, ?_⟩ <;>
    simp only [SparseSet.exchange, length_swapEntries, entryA, entryB, newDomain, newMap]
  · intro i bound
    split_ifs
    · exact va
    · exact vb
    · exact domainLt i bound
  · intro v bound
    split_ifs
    · rw [mapB]
      exact bBound
    · rw [mapA]
      exact aBound
    · exact mapLt v bound
  · intro i bound
    have place := mapDomain i bound
    by_cases isB : i = b
    · rw [if_pos isB, if_pos rfl, mapB, isB]
    · by_cases isA : i = a
      · have differs : set.domain.getD b 0 ≠ set.domain.getD a 0 := fun same =>
          isB (isA.trans (mapA.symm.trans (same ▸ mapB)))
        rw [if_neg isB, if_pos isA, if_neg differs, if_pos rfl, mapA, isA]
      · have notA : set.domain.getD i 0 ≠ set.domain.getD a 0 := fun same =>
          isA (place.symm.trans (same ▸ mapA))
        have notB : set.domain.getD i 0 ≠ set.domain.getD b 0 := fun same =>
          isB (place.symm.trans (same ▸ mapB))
        rw [if_neg isB, if_neg isA, if_neg notA, if_neg notB, place]
  · intro v bound
    have entry := domainMap v bound
    by_cases isA : v = set.domain.getD a 0
    · rw [if_pos isA, mapB, if_pos rfl, isA]
    · by_cases isB : v = set.domain.getD b 0
      · have differs : a ≠ b := fun same => isA (isB.trans (same ▸ rfl))
        rw [if_neg isA, if_pos isB, mapA, if_neg differs, if_pos rfl, isB]
      · have notB : set.map.getD v 0 ≠ b := fun same => isB (entry.symm.trans (same ▸ rfl))
        have notA : set.map.getD v 0 ≠ a := fun same => isA (entry.symm.trans (same ▸ rfl))
        rw [if_neg isA, if_neg isB, if_neg notB, if_neg notA, entry]

theorem getD_domain_exchange {set : SparseSet} {a b : ℕ} (aBound : a < set.domain.length)
    (bBound : b < set.domain.length) (i : ℕ) :
    (set.exchange a b).domain.getD i 0 =
      if i = b then set.domain.getD a 0 else if i = a then set.domain.getD b 0
      else set.domain.getD i 0 :=
  getD_swapEntries aBound bBound i

/-- Lists of numbers that agree in length and in every entry are equal. -/
theorem eq_of_getD {left right : List ℕ} (lengths : left.length = right.length)
    (entries : ∀ i < left.length, left.getD i 0 = right.getD i 0) : left = right := by
  apply List.ext_getElem lengths
  intro i leftBound rightBound
  have := entries i leftBound
  rwa [List.getD_eq_getElem _ _ leftBound, List.getD_eq_getElem _ _ rightBound] at this

/-- A non-member lies beyond the members in the permutation. -/
theorem WellFormed.size_le_map {set : SparseSet} {x : ℕ}
    (lower : set.min ≤ x) (upper : x ≤ set.max) (absent : ¬set.contains x = true) :
    set.size ≤ set.map.getD (x - set.min) 0 := by
  simp only [SparseSet.contains, Bool.and_eq_true, decide_eq_true_eq, not_and, Nat.not_lt] at absent
  exact absent ⟨lower, upper⟩

/-- Inserting appends a new element to the enumeration. -/
theorem WellFormed.insert {set : SparseSet} (wellFormed : set.WellFormed) {x : ℕ}
    (lower : set.min ≤ x) (upper : x ≤ set.max) (absent : ¬set.contains x = true) :
    (set.insert x).WellFormed ∧ (set.insert x).elements = set.elements ++ [x - set.min] := by
  have offset : x - set.min < set.domain.length := by
    have := wellFormed.domainLength
    omega
  have beyond := WellFormed.size_le_map lower upper absent
  have aBound := wellFormed.mapLt _ offset
  have bBound : set.size < set.domain.length := by omega
  have exchanged := wellFormed.exchange aBound bBound
  have value := wellFormed.domainMap _ offset
  simp only [SparseSet.insert, absent, Bool.false_eq_true, if_false]
  constructor
  · exact ⟨exchanged.ordered, exchanged.domainLength, exchanged.mapLength,
      by simp only [SparseSet.exchange, length_swapEntries]; omega, exchanged.domainLt,
      exchanged.mapLt, exchanged.mapDomain, exchanged.domainMap⟩
  · have sizes : (set.exchange (set.map.getD (x - set.min) 0) set.size).domain.length =
        set.domain.length := by simp [SparseSet.exchange]
    have oldLength := wellFormed.length_elements
    apply eq_of_getD
    · simp only [elements, List.length_take, List.length_append, List.length_singleton, sizes]
      omega
    · intro i iBound
      have iSize : i < set.size + 1 := by
        simp only [elements, List.length_take, sizes] at iBound
        omega
      rw [getD_elements _ iSize, getD_domain_exchange aBound bBound]
      by_cases last : i = set.size
      · subst last
        rw [if_pos rfl, value, List.getD_append_right _ _ _ _ (by omega)]
        simp [oldLength]
      · have inside : i < set.size := by omega
        rw [if_neg last, if_neg (by omega), List.getD_append _ _ _ _ (by omega),
          getD_elements _ inside]

/-- Erasing moves the last element of the enumeration into the place of the erased one. -/
def eraseSwap (entries : List ℕ) (v : ℕ) : List ℕ :=
  (entries.set (entries.idxOf v) (entries.getD (entries.length - 1) 0)).dropLast

/-- Up to the order, moving the last entry into its place erases an entry. -/
theorem eraseSwap_perm {entries : List ℕ} {v : ℕ} (member : v ∈ entries) :
    (eraseSwap entries v).Perm (entries.erase v) := by
  rcases List.eq_nil_or_concat entries with rfl | ⟨front, last, rfl⟩
  · simp at member
  · rw [List.concat_eq_append] at member ⊢
    have lastEntry : (front ++ [last]).getD ((front ++ [last]).length - 1) 0 = last := by
      simp [List.getD_eq_getElem?_getD]
    by_cases inside : v ∈ front
    · rcases List.eq_append_cons_of_mem inside with ⟨before, after, rfl, absent⟩
      have position : (before ++ v :: after ++ [last]).idxOf v = before.length := by
        simp [List.idxOf_append, absent]
      have moved : (before ++ v :: after ++ [last]).set before.length last =
          before ++ last :: after ++ [last] := by
        simp [List.set_append_right]
      have erased : (before ++ v :: after ++ [last]).erase v = before ++ (after ++ [last]) := by
        simp [List.erase_append, absent]
      rw [eraseSwap, position, lastEntry, moved, List.dropLast_concat, erased]
      exact (List.perm_append_singleton last after).symm.append_left before
    · have same : v = last := by simpa [inside] using member
      subst same
      have position : (front ++ [v]).idxOf v = front.length := by
        simp [List.idxOf_append, inside]
      have moved : (front ++ [v]).set front.length v = front ++ [v] := by
        simp [List.set_append_right]
      have erased : (front ++ [v]).erase v = front := by
        simp [List.erase_append, inside]
      rw [eraseSwap, position, lastEntry, moved, List.dropLast_concat, erased]

theorem idxOf_map {rename : ℕ → ℕ} (injective : Function.Injective rename) (entries : List ℕ)
    (v : ℕ) : (entries.map rename).idxOf (rename v) = entries.idxOf v := by
  induction entries with
  | nil => rfl
  | cons entry rest ih =>
      by_cases same : entry = v
      · simp [same]
      · simp [same, injective.eq_iff, ih]

/-- Erasing commutes with an injective change of names. -/
theorem eraseSwap_map {rename : ℕ → ℕ} (injective : Function.Injective rename)
    {entries : List ℕ} {v : ℕ} (member : v ∈ entries) :
    eraseSwap (entries.map rename) (rename v) = (eraseSwap entries v).map rename := by
  have last : entries.length - 1 < entries.length := by
    have := List.length_pos_of_mem member
    omega
  have lastEntry : (entries.map rename).getD ((entries.map rename).length - 1) 0 =
      rename (entries.getD (entries.length - 1) 0) := by
    simp [List.getD_eq_getElem?_getD, last]
  rw [eraseSwap, eraseSwap, idxOf_map injective, lastEntry, List.map_dropLast, List.map_set]

/-- The position of a member in the enumeration is what `map` records. -/
theorem WellFormed.idxOf_elements {set : SparseSet} (wellFormed : set.WellFormed) {v : ℕ}
    (member : v ∈ set.elements) : set.elements.idxOf v = set.map.getD v 0 := by
  have sizeLe := wellFormed.sizeLe
  have position : set.elements.idxOf v < set.elements.length := List.idxOf_lt_length_iff.mpr member
  have inside : set.elements.idxOf v < set.size := by
    rwa [wellFormed.length_elements] at position
  have entry : set.domain.getD (set.elements.idxOf v) 0 = v := by
    rw [← getD_elements set inside, List.getD_eq_getElem _ _ position, List.getElem_idxOf]
  have := wellFormed.mapDomain (set.elements.idxOf v) (by omega)
  rw [entry] at this
  exact this.symm

theorem WellFormed.erase {set : SparseSet} (wellFormed : set.WellFormed) {x : ℕ}
    (present : set.contains x = true) :
    (set.erase x).WellFormed ∧
      (set.erase x).elements = eraseSwap set.elements (x - set.min) := by
  have range := present
  simp only [SparseSet.contains, Bool.and_eq_true, decide_eq_true_eq] at range
  rcases range with ⟨⟨lower, upper⟩, inside⟩
  have member := (wellFormed.contains_iff lower upper).mp present
  have sizeLe := wellFormed.sizeLe
  have aBound : set.map.getD (x - set.min) 0 < set.domain.length := by omega
  have bBound : set.size - 1 < set.domain.length := by omega
  have exchanged := wellFormed.exchange aBound bBound
  have oldLength := wellFormed.length_elements
  simp only [SparseSet.erase, present, if_true]
  constructor
  · exact ⟨exchanged.ordered, exchanged.domainLength, exchanged.mapLength,
      by simp only [SparseSet.exchange, length_swapEntries]; omega,
      exchanged.domainLt, exchanged.mapLt, exchanged.mapDomain, exchanged.domainMap⟩
  · have sizes : (set.exchange (set.map.getD (x - set.min) 0) (set.size - 1)).domain.length =
        set.domain.length := by simp [SparseSet.exchange]
    have position := wellFormed.idxOf_elements member
    apply eq_of_getD
    · simp only [elements, eraseSwap, List.length_take, List.length_dropLast, List.length_set,
        sizes]
      omega
    · intro i iBound
      have iSize : i < set.size - 1 := by
        simp only [elements, List.length_take, sizes] at iBound
        omega
      have last : set.elements.getD (set.elements.length - 1) 0 =
          set.domain.getD (set.size - 1) 0 := by
        rw [oldLength, getD_elements set (by omega)]
      rw [getD_elements _ iSize, getD_domain_exchange aBound bBound, if_neg (by omega),
        eraseSwap, last, position]
      have inside : i < set.elements.length := by omega
      have entry : set.domain.getD i 0 = set.elements[i] := by
        rw [← getD_elements set (by omega : i < set.size), List.getD_eq_getElem _ _ inside]
      have bound : i < (set.elements.set (set.map.getD (x - set.min) 0)
          (set.domain.getD (set.size - 1) 0)).dropLast.length := by
        rw [List.length_dropLast, List.length_set]
        omega
      rw [List.getD_eq_getElem _ _ bound, List.getElem_dropLast, List.getElem_set, entry]
      by_cases at_ : i = set.map.getD (x - set.min) 0
      · rw [if_pos at_, if_pos at_.symm]
      · rw [if_neg at_, if_neg (Ne.symm at_)]

/-- The entries that `extend` appends are the identity. -/
theorem getD_grow (entries : List ℕ) (k i : ℕ) :
    (entries ++ (List.range k).map (entries.length + ·)).getD i 0 =
      if i < entries.length then entries.getD i 0
      else if i < entries.length + k then i else 0 := by
  rw [List.getD_eq_getElem?_getD]
  by_cases old : i < entries.length
  · rw [List.getElem?_append_left old, if_pos old, List.getD_eq_getElem?_getD]
  · rw [List.getElem?_append_right (by omega), if_neg old, List.getElem?_map]
    by_cases new : i < entries.length + k
    · rw [if_pos new, List.getElem?_range (by omega)]
      simp only [Option.map_some, Option.getD_some]
      omega
    · rw [if_neg new, List.getElem?_eq_none (by simp only [List.length_range]; omega)]
      rfl

/-- Growing the range keeps the members and their order. -/
theorem WellFormed.extend {set : SparseSet} (wellFormed : set.WellFormed) {newMax : ℕ}
    (grows : set.max ≤ newMax) :
    (set.extend newMax).WellFormed ∧ (set.extend newMax).elements = set.elements := by
  rcases wellFormed with ⟨ordered, domainLength, mapLength, sizeLe, domainLt, mapLt,
    mapDomain, domainMap⟩
  have lengths : set.map.length = set.domain.length := by omega
  have grownDomain := getD_grow set.domain (newMax - set.min + 1 - set.domain.length)
  have grownMap := getD_grow set.map (newMax - set.min + 1 - set.domain.length)
  rw [lengths] at grownMap
  refine ⟨⟨?_, ?_, ?_, ?_, ?_, ?_, ?_, ?_⟩, ?_⟩ <;>
    simp only [SparseSet.extend, List.length_append, List.length_map, List.length_range,
      grownDomain, grownMap, elements]
  · omega
  · omega
  · omega
  · omega
  · intro i bound
    split
    · have := domainLt i ‹_›
      omega
    · exact bound
  · intro v bound
    split
    · have := mapLt v ‹_›
      omega
    · exact bound
  · intro i bound
    by_cases old : i < set.domain.length
    · rw [if_pos old, if_pos (domainLt i old), mapDomain i old]
    · simp only [old, if_false, bound, if_true]
  · intro v bound
    by_cases old : v < set.domain.length
    · rw [if_pos old, if_pos (mapLt v old), domainMap v old]
    · simp only [old, if_false, bound, if_true]
  · exact List.take_append_of_le_length sizeLe

/-- A new maximum that is not smaller changes neither the members nor their order. -/
theorem WellFormed.resize {set : SparseSet} (wellFormed : set.WellFormed) {newMax : ℕ}
    (grows : set.max ≤ newMax) :
    (set.resize newMax).WellFormed ∧ (set.resize newMax).elements = set.elements ∧
      (set.resize newMax).min = set.min ∧ (set.resize newMax).max = newMax := by
  unfold SparseSet.resize
  rw [if_neg (by omega)]
  split
  · exact ⟨(wellFormed.extend grows).1, (wellFormed.extend grows).2, rfl, rfl⟩
  · exact ⟨wellFormed, rfl, rfl, by omega⟩

@[simp]
theorem empty_resize (set : SparseSet) (newMax : ℕ) : (set.resize newMax).empty = set.empty := by
  unfold SparseSet.resize
  split_ifs <;> rfl

@[simp]
theorem range_insert (set : SparseSet) (x : ℕ) :
    (set.insert x).min = set.min ∧ (set.insert x).max = set.max := by
  unfold SparseSet.insert
  split <;> exact ⟨rfl, rfl⟩

@[simp]
theorem range_erase (set : SparseSet) (x : ℕ) :
    (set.erase x).min = set.min ∧ (set.erase x).max = set.max := by
  unfold SparseSet.erase
  split <;> exact ⟨rfl, rfl⟩

theorem size_erase {set : SparseSet} {x : ℕ} (present : set.contains x = true) :
    (set.erase x).size = set.size - 1 := by
  rw [SparseSet.erase, if_pos present]

theorem WellFormed.nodup_elements {set : SparseSet} (wellFormed : set.WellFormed) :
    set.elements.Nodup := by
  have sizes := wellFormed.length_elements
  have sizeLe := wellFormed.sizeLe
  rw [List.nodup_iff_injective_getElem]
  intro left right same
  have leftEntry := getD_elements set (i := left) (by omega)
  have rightEntry := getD_elements set (i := right) (by omega)
  rw [List.getD_eq_getElem _ _ left.isLt] at leftEntry
  rw [List.getD_eq_getElem _ _ right.isLt] at rightEntry
  have leftMap := wellFormed.mapDomain left (by omega)
  have rightMap := wellFormed.mapDomain right (by omega)
  rw [← leftEntry] at leftMap
  rw [← rightEntry] at rightMap
  apply Fin.ext
  rw [← leftMap, ← rightMap]
  exact congrArg (fun entry => set.map.getD entry 0) same

/-- Inserting adds one member. -/
theorem WellFormed.mem_insert {set : SparseSet} (wellFormed : set.WellFormed) {x : ℕ}
    (lower : set.min ≤ x) (upper : x ≤ set.max) :
    (set.insert x).WellFormed ∧
      ∀ v, v ∈ (set.insert x).elements ↔ v ∈ set.elements ∨ v = x - set.min := by
  by_cases present : set.contains x = true
  · have unchanged : set.insert x = set := by simp [SparseSet.insert, present]
    have member := (wellFormed.contains_iff lower upper).mp present
    rw [unchanged]
    refine ⟨wellFormed, ?_⟩
    intro v
    constructor
    · exact Or.inl
    · rintro (old | rfl)
      · exact old
      · exact member
  · rcases wellFormed.insert lower upper present with ⟨inserted, appended⟩
    refine ⟨inserted, ?_⟩
    intro v
    rw [appended, List.mem_append, List.mem_singleton]

/-- Erasing removes one member. -/
theorem WellFormed.mem_erase {set : SparseSet} (wellFormed : set.WellFormed) {x : ℕ}
    (lower : set.min ≤ x) (upper : x ≤ set.max) :
    (set.erase x).WellFormed ∧
      ∀ v, v ∈ (set.erase x).elements ↔ v ∈ set.elements ∧ v ≠ x - set.min := by
  by_cases present : set.contains x = true
  · rcases wellFormed.erase present with ⟨erased, swapped⟩
    have member := (wellFormed.contains_iff lower upper).mp present
    refine ⟨erased, ?_⟩
    intro v
    rw [swapped, (eraseSwap_perm member).mem_iff, wellFormed.nodup_elements.mem_erase_iff,
      and_comm]
  · have unchanged : set.erase x = set := by simp [SparseSet.erase, present]
    have absent := mt (wellFormed.contains_iff lower upper).mpr present
    rw [unchanged]
    refine ⟨wellFormed, ?_⟩
    intro v
    constructor
    · intro member
      refine ⟨member, ?_⟩
      rintro rfl
      exact absent member
    · exact And.left

end SparseSet

end Talpf
