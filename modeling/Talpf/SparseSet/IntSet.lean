import Mathlib.Data.Finset.Card
import Mathlib.Data.Finset.Dedup
import Mathlib.Data.Int.Order.Basic
import Talpf.Library.Transition
import Talpf.SparseSet

/-!
# Sparse sets of integers

The range of a sparse set may start anywhere.  The two arrays hold offsets from the
start of the range, not elements, so that a set behaves like one whose range starts at
zero.  Here an access outside of an array has no result, and the arrays may fail to grow.
The run theorem compares a set with the finite set that the same operations make.
-/

namespace Talpf

/-- A sparse set with members in the range `[min, max]`; an offset is stored as a number of the
element type. -/
structure IntSet where
  min : ℤ
  max : ℤ
  size : ℕ
  domain : List ℕ
  map : List ℕ
deriving DecidableEq, Repr

namespace IntSet

/-- Which of the two arrays cannot grow. -/
structure Faults where
  domain : Bool
  map : Bool
deriving DecidableEq, Repr

/-- Fill an array with the identity, from some index on. -/
def identityFrom (entries : List ℕ) (start : ℕ) : List ℕ :=
  entries.take start ++ (List.range (entries.length - start)).map (start + ·)

/-- Resize both arrays, or throw and resize the permutation back. -/
def resizeArrays (set : IntSet) (faults : Faults) (size : ℕ) :
    Except IntSet (List ℕ × List ℕ) :=
  let oldSize := set.domain.length
  if faults.domain ∧ oldSize < size then
    .error { set with domain := set.domain.takeD oldSize 0 }
  else
    let domain := set.domain.takeD size 0
    if faults.map ∧ set.map.length < size then
      .error { set with domain := domain.takeD oldSize 0 }
    else .ok (domain, set.map.takeD size 0)

/-- Empty the set and reallocate it; the flag tells whether `std::bad_alloc` was thrown. -/
def reset (set : IntSet) (faults : Faults) (min max : ℤ) : IntSet × Bool :=
  let size := (max - min + 1).toNat
  match set.resizeArrays faults size with
  | .error set => (set, true)
  | .ok (domain, map) =>
      ({ min := min
         max := max
         size := 0
         domain := identityFrom domain 0
         map := identityFrom map 0 }, false)

/-- A new set for the range `[min, max]`. -/
def create (min max : ℤ) : IntSet :=
  (reset ⟨0, 0, 0, [], []⟩ ⟨false, false⟩ min max).1

/-- Extend the range with a new maximum. -/
def extend (set : IntSet) (faults : Faults) (newMax : ℤ) : IntSet × Bool :=
  let newSize := (newMax - set.min + 1).toNat
  let oldSize := set.domain.length
  match set.resizeArrays faults newSize with
  | .error set => (set, true)
  | .ok (domain, map) =>
      ({ set with
         max := newMax
         domain := identityFrom domain oldSize
         map := identityFrom map oldSize }, false)

def clear (set : IntSet) : IntSet := { set with size := 0 }

def empty (set : IntSet) : Bool := set.size == 0

/-- What an offset has as its entry in the inverse permutation. -/
def place (set : IntSet) (x : ℤ) : Option ℕ := set.map[(x - set.min).toNat]?

/-- Whether the set contains the element `x`. -/
def contains (set : IntSet) (x : ℤ) : Option Bool :=
  if x ≥ set.min ∧ x ≤ set.max then (set.place x).map fun position => position < set.size
  else some false

/-- Exchange two entries of an array, if they are there. -/
def swap (entries : List ℕ) (a b : ℕ) : Option (List ℕ) :=
  if a < entries.length ∧ b < entries.length then some (swapEntries entries a b) else none

/-- Exchange the entries `a` and `b` of the permutation and repair its inverse. -/
def exchange (set : IntSet) (a b : ℕ) : Option IntSet :=
  (swap set.domain a b).bind fun domain =>
    domain[a]?.bind fun left =>
      domain[b]?.bind fun right =>
        (swap set.map left right).map fun map => { set with domain := domain, map := map }

/-- Add `x` to the set, if it was not already there. -/
def insert (set : IntSet) (x : ℤ) : Option IntSet :=
  (set.contains x).bind fun present =>
    if present then some set
    else
      (set.place x).bind fun a =>
        (set.exchange a set.size).map fun set => { set with size := set.size + 1 }

/-- Remove `x` from the set, if it was in there. -/
def erase (set : IntSet) (x : ℤ) : Option IntSet :=
  (set.contains x).bind fun present =>
    if present then
      let set := { set with size := set.size - 1 }
      (set.place x).bind fun a => set.exchange a set.size
    else some set

/-- What iteration from `begin()` to `end()` yields. -/
def values (set : IntSet) : List ℤ := (set.domain.take set.size).map fun (entry : ℕ) => (entry : ℤ)

/-- The iterator to an element, by its distance from `begin()`. -/
def find (set : IntSet) (x : ℤ) : Option ℕ :=
  if x < set.min then some set.size
  else if x > set.max then some set.size
  else (set.place x).map fun position => if position ≥ set.size then set.size else position

/-- The set of the offsets of the members. -/
def offsets (set : IntSet) : SparseSet where
  min := 0
  max := (set.max - set.min).toNat
  size := set.size
  domain := set.domain
  map := set.map

/-- The same range with other offsets. -/
def withOffsets (set : IntSet) (offsets : SparseSet) : IntSet :=
  { set with size := offsets.size, domain := offsets.domain, map := offsets.map }

/-- `domain` and `map` are inverse permutations of the offsets of a range that is not empty. -/
structure Valid (set : IntSet) : Prop where
  ordered : set.min ≤ set.max
  wellFormed : set.offsets.WellFormed

variable {set : IntSet} {x : ℤ}

/-- The offset of an element. -/
def offset (set : IntSet) (x : ℤ) : ℕ := (x - set.min).toNat

theorem Valid.length (valid : set.Valid) : (set.domain.length : ℤ) = set.max - set.min + 1 := by
  have ordered := valid.ordered
  have length : set.domain.length = (set.max - set.min).toNat - 0 + 1 :=
    valid.wellFormed.domainLength
  omega

theorem Valid.mapLength (valid : set.Valid) : set.map.length = set.domain.length :=
  valid.wellFormed.mapLength.trans valid.wellFormed.domainLength.symm

theorem Valid.offset_lt (valid : set.Valid) (lower : set.min ≤ x) (upper : x ≤ set.max) :
    set.offset x < set.domain.length := by
  have length := valid.length
  unfold offset
  omega

theorem Valid.place_eq (valid : set.Valid) (lower : set.min ≤ x) (upper : x ≤ set.max) :
    set.place x = some (set.map.getD (set.offset x) 0) := by
  have inside : set.offset x < set.map.length := by
    rw [valid.mapLength]
    exact valid.offset_lt lower upper
  rw [List.getD_eq_getElem _ _ inside]
  exact List.getElem?_eq_getElem inside

theorem Valid.contains_eq (valid : set.Valid) (lower : set.min ≤ x) (upper : x ≤ set.max) :
    set.contains x = some (set.offsets.contains (set.offset x)) := by
  have small : set.offset x ≤ (set.max - set.min).toNat := by
    unfold offset
    omega
  rw [contains, if_pos ⟨lower, upper⟩, valid.place_eq lower upper]
  simp [SparseSet.contains, offsets, small]

theorem contains_of_outside (outside : ¬(set.min ≤ x ∧ x ≤ set.max)) :
    set.contains x = some false := if_neg outside

/-- Exchanging never leaves the arrays. -/
theorem Valid.exchange_eq (valid : set.Valid) {a b : ℕ} (aBound : a < set.domain.length)
    (bBound : b < set.domain.length) :
    set.exchange a b = some (set.withOffsets (set.offsets.exchange a b)) := by
  have swapped : swap set.domain a b = some (swapEntries set.domain a b) :=
    if_pos ⟨aBound, bBound⟩
  have after := valid.wellFormed.exchange aBound bBound
  have entry (i : ℕ) (inside : i < set.domain.length) :
      (swapEntries set.domain a b)[i]? = some ((swapEntries set.domain a b).getD i 0) := by
    have bound : i < (swapEntries set.domain a b).length := by
      rwa [length_swapEntries]
    rw [List.getD_eq_getElem _ _ bound, List.getElem?_eq_getElem bound]
  have below (i : ℕ) (inside : i < set.domain.length) :
      (swapEntries set.domain a b).getD i 0 < set.map.length := by
    have length : (set.offsets.exchange a b).domain.length = set.domain.length :=
      length_swapEntries _ _ _
    have bound := after.domainLt i (length.symm ▸ inside)
    rw [length] at bound
    rw [valid.mapLength]
    exact bound
  have repaired : swap set.map ((swapEntries set.domain a b).getD a 0)
      ((swapEntries set.domain a b).getD b 0) = some (swapEntries set.map _ _) :=
    if_pos ⟨below a aBound, below b bBound⟩
  simp only [exchange, swapped, Option.bind_some, entry a aBound, entry b bBound, repaired,
    Option.map_some]
  rfl

theorem Valid.insert_eq (valid : set.Valid) (lower : set.min ≤ x) (upper : x ≤ set.max) :
    set.insert x = some (set.withOffsets (set.offsets.insert (set.offset x))) := by
  rw [insert, valid.contains_eq lower upper, Option.bind_some]
  cases present : set.offsets.contains (set.offset x) with
  | true =>
      rw [if_pos rfl, SparseSet.insert, if_pos present]
      rfl
  | false =>
      have small : set.offset x ≤ set.offsets.max := by
        show set.offset x ≤ (set.max - set.min).toNat
        unfold offset
        omega
      have absent : ¬set.offsets.contains (set.offset x) = true := by
        rw [present]
        exact Bool.false_ne_true
      have beyond := SparseSet.WellFormed.size_le_map (Nat.zero_le _) small absent
      have aBound : set.map.getD (set.offset x) 0 < set.domain.length :=
        valid.wellFormed.mapLt _ (valid.offset_lt lower upper)
      have bBound : set.size < set.domain.length := Nat.lt_of_le_of_lt beyond aBound
      rw [if_neg Bool.false_ne_true, valid.place_eq lower upper, Option.bind_some,
        valid.exchange_eq aBound bBound, Option.map_some, SparseSet.insert, if_neg absent]
      rfl

theorem Valid.erase_eq (valid : set.Valid) (lower : set.min ≤ x) (upper : x ≤ set.max) :
    set.erase x = some (set.withOffsets (set.offsets.erase (set.offset x))) := by
  rw [erase, valid.contains_eq lower upper, Option.bind_some]
  cases present : set.offsets.contains (set.offset x) with
  | true =>
      have inside := present
      simp only [SparseSet.contains, Bool.and_eq_true, decide_eq_true_eq] at inside
      have member : set.map.getD (set.offset x) 0 < set.size := inside.2
      have sizeLe : set.size ≤ set.domain.length := valid.wellFormed.sizeLe
      have smaller : ({ set with size := set.size - 1 } : IntSet).Valid := by
        rcases valid.wellFormed with ⟨ordered, domainLength, mapLength, _, domainLt, mapLt,
          mapDomain, domainMap⟩
        exact ⟨valid.ordered, ordered, domainLength, mapLength,
          Nat.le_trans (Nat.sub_le _ _) sizeLe, domainLt, mapLt, mapDomain, domainMap⟩
      have placed : ({ set with size := set.size - 1 } : IntSet).place x =
          some (set.map.getD (set.offset x) 0) := valid.place_eq lower upper
      have exchanged := smaller.exchange_eq (a := set.map.getD (set.offset x) 0)
        (b := set.size - 1) (Nat.lt_of_lt_of_le member sizeLe)
        (Nat.lt_of_lt_of_le (Nat.sub_one_lt (Nat.ne_zero_of_lt member)) sizeLe)
      rw [if_pos rfl, SparseSet.erase, if_pos present]
      simp only [placed, Option.bind_some, exchanged]
      rfl
  | false =>
      have absent : ¬set.offsets.contains (set.offset x) = true := by
        rw [present]
        exact Bool.false_ne_true
      rw [if_neg Bool.false_ne_true, SparseSet.erase, if_neg absent]
      rfl

theorem take_takeD (entries : List ℕ) {size : ℕ} (grows : entries.length ≤ size) :
    (entries.takeD size 0).take entries.length = entries := by
  induction entries generalizing size with
  | nil => rfl
  | cons entry rest ih =>
      cases size with
      | zero => exact absurd grows (Nat.not_succ_le_zero _)
      | succ size => exact congrArg (entry :: ·) (ih (Nat.le_of_succ_le_succ grows))

/-- The arrays are resized, or nothing has happened. -/
theorem resizeArrays_cases (lengths : set.map.length = set.domain.length) (faults : Faults)
    (size : ℕ) :
    set.resizeArrays faults size = .error set ∧ set.domain.length < size ∨
      set.resizeArrays faults size = .ok (set.domain.takeD size 0, set.map.takeD size 0) := by
  by_cases domainFails : faults.domain ∧ set.domain.length < size
  · left
    have same : set.domain.takeD set.domain.length 0 = set.domain := by
      rw [List.takeD_eq_take _ (Nat.le_refl _), List.take_length]
    refine ⟨?_, domainFails.2⟩
    simp only [resizeArrays, if_pos domainFails, same]
  · by_cases mapFails : faults.map ∧ set.map.length < size
    · left
      have grows : set.domain.length < size := lengths ▸ mapFails.2
      have back : (set.domain.takeD size 0).takeD set.domain.length 0 = set.domain := by
        rw [List.takeD_eq_take, take_takeD _ (Nat.le_of_lt grows)]
        rw [List.takeD_length]
        exact Nat.le_of_lt grows
      refine ⟨?_, grows⟩
      simp only [resizeArrays, if_neg domainFails, if_pos mapFails, back]
    · right
      simp only [resizeArrays, if_neg domainFails, if_neg mapFails]

theorem identityFrom_takeD (entries : List ℕ) {size : ℕ} (grows : entries.length ≤ size) :
    identityFrom (entries.takeD size 0) entries.length =
      entries ++ (List.range (size - entries.length)).map (entries.length + ·) := by
  rw [identityFrom, take_takeD entries grows, List.takeD_length]

theorem identityFrom_zero (entries : List ℕ) :
    identityFrom entries 0 = List.range entries.length := by
  simp [identityFrom]

/-- A reset throws and changes nothing, or makes the set empty. -/
theorem reset_cases (lengths : set.map.length = set.domain.length) (faults : Faults) (min max : ℤ)
    (ordered : min ≤ max) :
    set.reset faults min max = (set, true) ∨
      set.reset faults min max =
        (⟨min, max, 0, List.range ((max - min).toNat + 1), List.range ((max - min).toNat + 1)⟩,
          false) := by
  have size : (max - min + 1).toNat = (max - min).toNat + 1 := by omega
  rcases resizeArrays_cases lengths faults (max - min + 1).toNat with ⟨failed, _⟩ | resized
  · left
    simp only [reset, failed]
  · right
    simp only [reset, resized, identityFrom_zero, List.takeD_length]
    rw [size]

theorem valid_of_range {min max : ℤ} (ordered : min ≤ max) :
    (⟨min, max, 0, List.range ((max - min).toNat + 1),
      List.range ((max - min).toNat + 1)⟩ : IntSet).Valid :=
  ⟨ordered, SparseSet.wellFormed_reset (Nat.zero_le _)⟩

/-- An extension throws and changes nothing, or appends to both permutations. -/
theorem Valid.extend_cases (valid : set.Valid) (faults : Faults) {newMax : ℤ}
    (grows : set.max < newMax) :
    set.extend faults newMax = (set, true) ∨
      set.extend faults newMax =
        ({ set.withOffsets (set.offsets.extend (newMax - set.min).toNat) with max := newMax },
          false) := by
  have length := valid.length
  have ordered := valid.ordered
  have size : (newMax - set.min + 1).toNat = (newMax - set.min).toNat - 0 + 1 := by omega
  have larger : set.domain.length ≤ (newMax - set.min + 1).toNat := by omega
  rcases resizeArrays_cases valid.mapLength faults (newMax - set.min + 1).toNat with
    ⟨failed, _⟩ | resized
  · left
    simp only [extend, failed]
  · right
    have domain := identityFrom_takeD set.domain larger
    have map := identityFrom_takeD set.map (valid.mapLength.symm ▸ larger)
    rw [valid.mapLength] at map
    simp only [extend, resized]
    rw [domain, map, size]
    rfl

theorem Valid.extended (valid : set.Valid) {newMax : ℤ} (grows : set.max < newMax) :
    ({ set.withOffsets (set.offsets.extend (newMax - set.min).toNat) with
      max := newMax } : IntSet).Valid := by
  have ordered := valid.ordered
  have larger : set.offsets.max ≤ (newMax - set.min).toNat := by
    show (set.max - set.min).toNat ≤ _
    omega
  exact ⟨by show set.min ≤ newMax; omega, (valid.wellFormed.extend larger).1⟩

end IntSet

/-- What a sparse set stands for: a range and the members in it. -/
structure FiniteSet where
  min : ℤ
  max : ℤ
  members : Finset ℤ
deriving DecidableEq

namespace IntSet

/-- The operations that change a set. -/
inductive Op where
  | reset (faults : Faults) (min max : ℤ)
  | extend (faults : Faults) (newMax : ℤ)
  | insert (x : ℤ)
  | erase (x : ℤ)
  | clear
deriving DecidableEq, Repr

/-- The set after an operation and whether the operation has thrown `std::bad_alloc`. -/
def perform (set : IntSet) : Op → Option (IntSet × Bool)
  | .reset faults min max => some (set.reset faults min max)
  | .extend faults newMax => some (set.extend faults newMax)
  | .insert x => (set.insert x).map fun set => (set, false)
  | .erase x => (set.erase x).map fun set => (set, false)
  | .clear => some (set.clear, false)

end IntSet

namespace FiniteSet

/-- What the operations assert. -/
def Permits (finite : FiniteSet) : IntSet.Op → Prop
  | .reset _ min max => min ≤ max
  | .extend _ newMax => finite.max < newMax
  | .insert x => finite.min ≤ x ∧ x ≤ finite.max
  | .erase x => finite.min ≤ x ∧ x ≤ finite.max
  | .clear => True

/-- The same operation on a finite set; nothing happens if it throws. -/
def apply (finite : FiniteSet) (thrown : Bool) (op : IntSet.Op) : FiniteSet :=
  if thrown then finite
  else
    match op with
    | .reset _ min max => ⟨min, max, ∅⟩
    | .extend _ newMax => { finite with max := newMax }
    | .insert x => { finite with members := insert x finite.members }
    | .erase x => { finite with members := finite.members.erase x }
    | .clear => { finite with members := ∅ }

end FiniteSet

namespace IntSet

variable {set : IntSet} {finite : FiniteSet} {x : ℤ}

/-- A sparse set with the range and the members of a finite set. -/
structure Tracks (set : IntSet) (finite : FiniteSet) : Prop where
  valid : set.Valid
  min : finite.min = set.min
  max : finite.max = set.max
  members (x : ℤ) : x ∈ finite.members ↔
    (set.min ≤ x ∧ x ≤ set.max) ∧ set.offset x ∈ set.offsets.elements

theorem Tracks.range {finite : FiniteSet} (tracks : set.Tracks finite)
    (legal : finite.min ≤ x ∧ x ≤ finite.max) : set.min ≤ x ∧ x ≤ set.max := by
  rw [tracks.min, tracks.max] at legal
  exact legal

theorem offset_inj {y : ℤ} (lower : set.min ≤ x) (lower' : set.min ≤ y) :
    set.offset x = set.offset y ↔ x = y := by
  unfold offset
  omega

theorem Tracks.insert (tracks : set.Tracks finite)
    (lower : set.min ≤ x) (upper : x ≤ set.max) :
    (set.withOffsets (set.offsets.insert (set.offset x))).Tracks
      { finite with members := Insert.insert x finite.members } := by
  have small : set.offset x ≤ set.offsets.max := by
    show set.offset x ≤ (set.max - set.min).toNat
    unfold offset
    omega
  rcases tracks.valid.wellFormed.mem_insert (Nat.zero_le _) small with ⟨wellFormed, members⟩
  have range := SparseSet.range_insert set.offsets (set.offset x)
  have same : (set.withOffsets (set.offsets.insert (set.offset x))).offsets =
      set.offsets.insert (set.offset x) := by
    cases inserted : set.offsets.insert (set.offset x)
    rw [inserted] at range
    rcases range with ⟨rfl, rfl⟩
    rfl
  refine ⟨⟨tracks.valid.ordered, same.symm ▸ wellFormed⟩, tracks.min, tracks.max, fun y => ?_⟩
  rw [same]
  show y ∈ Insert.insert x finite.members ↔
    (set.min ≤ y ∧ y ≤ set.max) ∧ set.offset y ∈ (set.offsets.insert (set.offset x)).elements
  rw [Finset.mem_insert, members, tracks.members]
  constructor
  · rintro (rfl | ⟨inside, old⟩)
    · exact ⟨⟨lower, upper⟩, .inr (Nat.sub_zero _).symm⟩
    · exact ⟨inside, .inl old⟩
  · rintro ⟨inside, old | new⟩
    · exact .inr ⟨inside, old⟩
    · exact .inl ((offset_inj inside.1 lower).mp new)

theorem Tracks.erase (tracks : set.Tracks finite)
    (lower : set.min ≤ x) (upper : x ≤ set.max) :
    (set.withOffsets (set.offsets.erase (set.offset x))).Tracks
      { finite with members := finite.members.erase x } := by
  have small : set.offset x ≤ set.offsets.max := by
    show set.offset x ≤ (set.max - set.min).toNat
    unfold offset
    omega
  rcases tracks.valid.wellFormed.mem_erase (Nat.zero_le _) small with ⟨wellFormed, members⟩
  have range := SparseSet.range_erase set.offsets (set.offset x)
  have same : (set.withOffsets (set.offsets.erase (set.offset x))).offsets =
      set.offsets.erase (set.offset x) := by
    cases erased : set.offsets.erase (set.offset x)
    rw [erased] at range
    rcases range with ⟨rfl, rfl⟩
    rfl
  refine ⟨⟨tracks.valid.ordered, same.symm ▸ wellFormed⟩, tracks.min, tracks.max, fun y => ?_⟩
  rw [same]
  show y ∈ finite.members.erase x ↔
    (set.min ≤ y ∧ y ≤ set.max) ∧ set.offset y ∈ (set.offsets.erase (set.offset x)).elements
  rw [Finset.mem_erase, members, tracks.members]
  constructor
  · rintro ⟨different, inside, old⟩
    exact ⟨inside, old, fun same => different ((offset_inj inside.1 lower).mp same)⟩
  · rintro ⟨inside, old, different⟩
    exact ⟨fun same => different ((offset_inj inside.1 lower).mpr same), inside, old⟩

theorem Tracks.extend (tracks : set.Tracks finite) {newMax : ℤ} (grows : set.max < newMax) :
    ({ set.withOffsets (set.offsets.extend (newMax - set.min).toNat) with
      max := newMax } : IntSet).Tracks { finite with max := newMax } := by
  have larger : set.offsets.max ≤ (newMax - set.min).toNat := by
    show (set.max - set.min).toNat ≤ _
    omega
  have elements := (tracks.valid.wellFormed.extend larger).2
  refine ⟨tracks.valid.extended grows, tracks.min, rfl, fun y => ?_⟩
  show y ∈ finite.members ↔ (set.min ≤ y ∧ y ≤ newMax) ∧
    set.offset y ∈ (set.offsets.extend (newMax - set.min).toNat).elements
  rw [elements, tracks.members]
  constructor
  · rintro ⟨⟨lower, upper⟩, member⟩
    exact ⟨⟨lower, by omega⟩, member⟩
  · rintro ⟨⟨lower, _⟩, member⟩
    have below := (tracks.valid.wellFormed.mem_elements.mp member).1
    have length := tracks.valid.length
    have position : set.offset y < set.domain.length := below
    unfold offset at position
    exact ⟨⟨lower, by omega⟩, member⟩

theorem Tracks.clear (tracks : set.Tracks finite) :
    set.clear.Tracks { finite with members := ∅ } := by
  refine ⟨⟨tracks.valid.ordered, tracks.valid.wellFormed.clear⟩, tracks.min, tracks.max,
    fun y => ?_⟩
  have none : set.clear.offsets.elements = [] := SparseSet.elements_clear set.offsets
  rw [none]
  simp

theorem tracks_of_range {min max : ℤ} (ordered : min ≤ max) :
    (⟨min, max, 0, List.range ((max - min).toNat + 1),
      List.range ((max - min).toNat + 1)⟩ : IntSet).Tracks ⟨min, max, ∅⟩ := by
  refine ⟨valid_of_range ordered, rfl, rfl, fun y => ?_⟩
  simp [SparseSet.elements, offsets]

/-- Every permitted operation takes place, and what has thrown has changed nothing. -/
theorem Tracks.perform (tracks : set.Tracks finite) {op : Op} (legal : finite.Permits op) :
    ∃ after thrown, set.perform op = some (after, thrown) ∧
      after.Tracks (finite.apply thrown op) ∧ (thrown = true → after = set) := by
  cases op with
  | reset faults min max =>
      rcases reset_cases tracks.valid.mapLength faults min max legal with failed | done
      · exact ⟨set, true, congrArg some failed, tracks, fun _ => rfl⟩
      · exact ⟨_, false, congrArg some done, tracks_of_range legal, nofun⟩
  | extend faults newMax =>
      have grows : set.max < newMax := tracks.max ▸ legal
      rcases tracks.valid.extend_cases faults grows with failed | done
      · exact ⟨set, true, congrArg some failed, tracks, fun _ => rfl⟩
      · exact ⟨_, false, congrArg some done, tracks.extend grows, nofun⟩
  | insert x =>
      have inside := tracks.range legal
      refine ⟨_, false, ?_, tracks.insert inside.1 inside.2, nofun⟩
      rw [IntSet.perform, tracks.valid.insert_eq inside.1 inside.2]
      rfl
  | erase x =>
      have inside := tracks.range legal
      refine ⟨_, false, ?_, tracks.erase inside.1 inside.2, nofun⟩
      rw [IntSet.perform, tracks.valid.erase_eq inside.1 inside.2]
      rfl
  | clear => exact ⟨set.clear, false, rfl, tracks.clear, nofun⟩

/-- A permitted operation on a sparse set and on the finite set that it stands for. -/
def Step (before : IntSet × FiniteSet) (op : Op) (after : IntSet × FiniteSet) : Prop :=
  ∃ thrown, before.1.perform op = some (after.1, thrown) ∧ after.2 = before.2.apply thrown op

/-- The sets that operations make from a new set for the range `[min, max]`. -/
def Run (min max : ℤ) (set : IntSet) (finite : FiniteSet) : Prop :=
  Transition.Reachable Step (fun sets op => sets.2.Permits op)
    (create min max, ⟨min, max, ∅⟩) (set, finite)

theorem create_eq (min max : ℤ) (ordered : min ≤ max) :
    create min max =
      ⟨min, max, 0, List.range ((max - min).toNat + 1), List.range ((max - min).toNat + 1)⟩ := by
  have size : (max - min + 1).toNat = (max - min).toNat + 1 := by omega
  simp [create, reset, resizeArrays, identityFrom_zero, size]

theorem Run.tracks {min max : ℤ} (ordered : min ≤ max) (run : Run min max set finite) :
    set.Tracks finite := by
  let Holds (sets : IntSet × FiniteSet) : Prop := sets.1.Tracks sets.2
  have initially : Holds (create min max, ⟨min, max, ∅⟩) := by
    show (create min max).Tracks ⟨min, max, ∅⟩
    rw [create_eq min max ordered]
    exact tracks_of_range ordered
  suffices holds : Holds (set, finite) from holds
  refine run.invariant initially ?_
  rintro ⟨before, finite⟩ op ⟨after, finite'⟩ tracks legal ⟨thrown, performed, rfl⟩
  rcases tracks.perform legal with ⟨set, flag, result, tracks', _⟩
  rw [performed] at result
  rw [Option.some.injEq, Prod.mk.injEq] at result
  rcases result with ⟨rfl, rfl⟩
  exact tracks'

/-- What the arrays of a set and its queries say about the finite set. -/
structure Represents (set : IntSet) (finite : FiniteSet) : Prop where
  min : set.min = finite.min
  max : set.max = finite.max
  length : (set.domain.length : ℤ) = finite.max - finite.min + 1
  permutation : set.domain.Perm (List.range set.domain.length)
  mapLength : set.map.length = set.domain.length
  inverse (i entry : ℕ) : set.domain[i]? = some entry ↔ set.map[entry]? = some i
  members (v : ℕ) : v ∈ set.domain.take set.size ↔ ∃ x ∈ finite.members, x - finite.min = v
  contains (x : ℤ) : set.contains x = some (decide (x ∈ finite.members))
  size : set.size = finite.members.card
  empty : set.empty = true ↔ finite.members = ∅

theorem Valid.nodup (valid : set.Valid) : set.domain.Nodup := by
  rw [List.nodup_iff_injective_getElem]
  intro left right same
  have leftMap := valid.wellFormed.mapDomain left left.isLt
  have rightMap := valid.wellFormed.mapDomain right right.isLt
  have entries : set.domain.getD left 0 = set.domain.getD right 0 := by
    rw [List.getD_eq_getElem _ _ left.isLt, List.getD_eq_getElem _ _ right.isLt]
    exact same
  apply Fin.ext
  rw [← leftMap, ← rightMap]
  exact congrArg (fun entry => set.map.getD entry 0) entries

theorem Valid.permutation (valid : set.Valid) :
    set.domain.Perm (List.range set.domain.length) := by
  refine (valid.nodup.subperm fun entry member => ?_).perm_of_length_le (by simp)
  rcases List.mem_iff_getElem.mp member with ⟨i, inside, rfl⟩
  have below := valid.wellFormed.domainLt i inside
  rw [List.mem_range, ← List.getD_eq_getElem _ 0 inside]
  exact below

theorem Valid.inverse (valid : set.Valid) (i entry : ℕ) :
    set.domain[i]? = some entry ↔ set.map[entry]? = some i := by
  constructor
  · intro found
    rcases List.getElem?_eq_some_iff.mp found with ⟨inside, value⟩
    have entry_eq : set.domain.getD i 0 = entry := by
      rw [List.getD_eq_getElem _ _ inside, value]
    have back : set.map.getD (set.domain.getD i 0) 0 = i := valid.wellFormed.mapDomain i inside
    have below : set.domain.getD i 0 < set.domain.length := valid.wellFormed.domainLt i inside
    rw [entry_eq] at back below
    rw [← valid.mapLength] at below
    rw [List.getElem?_eq_getElem below, ← List.getD_eq_getElem _ 0 below, back]
  · intro found
    rcases List.getElem?_eq_some_iff.mp found with ⟨inside, value⟩
    have place_eq : set.map.getD entry 0 = i := by
      rw [List.getD_eq_getElem _ _ inside, value]
    rw [valid.mapLength] at inside
    have back : set.domain.getD (set.map.getD entry 0) 0 = entry :=
      valid.wellFormed.domainMap entry inside
    have below : set.map.getD entry 0 < set.domain.length := valid.wellFormed.mapLt entry inside
    rw [place_eq] at back below
    rw [List.getElem?_eq_getElem below, ← List.getD_eq_getElem _ 0 below, back]

theorem Tracks.mem_elements (tracks : set.Tracks finite) (v : ℕ) :
    v ∈ set.offsets.elements ↔ ∃ x ∈ finite.members, x - finite.min = v := by
  have length := tracks.valid.length
  rw [tracks.min]
  constructor
  · intro member
    have below : v < set.domain.length := (tracks.valid.wellFormed.mem_elements.mp member).1
    have same : set.offset (set.min + v) = v := by
      unfold offset
      omega
    refine ⟨set.min + v, (tracks.members _).mpr ⟨⟨by omega, by omega⟩, same.symm ▸ member⟩, ?_⟩
    omega
  · rintro ⟨x, member, same⟩
    have index : set.offset x = v := by
      unfold offset
      omega
    exact index ▸ ((tracks.members x).mp member).2

/-- The members are as many as the offsets. -/
theorem Tracks.card (tracks : set.Tracks finite) : finite.members.card = set.size := by
  have elements : finite.members.image set.offset = set.offsets.elements.toFinset := by
    ext v
    rw [Finset.mem_image, List.mem_toFinset, tracks.mem_elements]
    constructor
    · rintro ⟨x, member, rfl⟩
      have lower := ((tracks.members x).mp member).1.1
      refine ⟨x, member, ?_⟩
      rw [tracks.min]
      unfold offset
      omega
    · rintro ⟨x, member, same⟩
      refine ⟨x, member, ?_⟩
      rw [tracks.min] at same
      unfold offset
      omega
  have injective : Set.InjOn set.offset finite.members := by
    intro x xMember y yMember same
    exact (offset_inj ((tracks.members x).mp xMember).1.1 ((tracks.members y).mp yMember).1.1).mp
      same
  rw [← Finset.card_image_of_injOn injective, elements,
    List.toFinset_card_of_nodup tracks.valid.wellFormed.nodup_elements]
  exact tracks.valid.wellFormed.length_elements

theorem Tracks.contains (tracks : set.Tracks finite) (x : ℤ) :
    set.contains x = some (decide (x ∈ finite.members)) := by
  by_cases inside : set.min ≤ x ∧ x ≤ set.max
  · have small : set.offset x ≤ set.offsets.max := by
      show set.offset x ≤ (set.max - set.min).toNat
      unfold offset
      omega
    have member : set.offsets.contains (set.offset x) = true ↔ x ∈ finite.members := by
      rw [tracks.valid.wellFormed.contains_iff (Nat.zero_le _) small, tracks.members]
      exact ⟨fun listed => ⟨inside, listed⟩, fun listed => listed.2⟩
    rw [tracks.valid.contains_eq inside.1 inside.2]
    exact congrArg some (Bool.eq_iff_iff.mpr (member.trans decide_eq_true_iff.symm))
  · have absent : x ∉ finite.members := fun member => inside ((tracks.members x).mp member).1
    rw [contains_of_outside inside, decide_eq_false absent]

theorem Tracks.represents (tracks : set.Tracks finite) : set.Represents finite where
  min := tracks.min.symm
  max := tracks.max.symm
  length := by
    rw [tracks.min, tracks.max]
    exact tracks.valid.length
  permutation := tracks.valid.permutation
  mapLength := tracks.valid.mapLength
  inverse := tracks.valid.inverse
  members := tracks.mem_elements
  contains := tracks.contains
  size := tracks.card.symm
  empty := by
    rw [← Finset.card_eq_zero, tracks.card, IntSet.empty, beq_iff_eq]

end IntSet

end Talpf
