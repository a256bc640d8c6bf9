import Talpf.Library.Observation
import Talpf.MessageSort.Runs

/-!
# What callers of `MessageSort` observe

Callers see the offsets and sizes that `pushWrite` returns, the writes that
`popWrite` pops and the answers of `canWrite`.  The set of dirty regions shows
only in the order in which it enumerates its members: two states that agree in
this order and in everything else are never told apart.
-/

namespace Talpf

namespace MessageSort

open Observation

inductive Query where
  | pushWrite (write : Write)
  | popWrite
  | canWrite (msgId slot offset : ℕ)
deriving DecidableEq, Repr

inductive Answer where
  | pushed (offset size : ℕ)
  | popped (popped : Option Popped)
  | allowed (answer : Bool)
deriving DecidableEq, Repr

/-- `none` is a failed assertion or an access beyond an array. -/
def ask (sort : MessageSort) : Query → Option (Answer × MessageSort)
  | .pushWrite write =>
      (sort.pushWrite write.msgId write.slot write.offset write.size).map
        fun (after, offset, size) => (.pushed offset size, after)
  | .popWrite => sort.popWrite.map fun (popped, after) => (.popped popped, after)
  | .canWrite msgId slot offset =>
      (sort.canWrite msgId slot offset).map fun answer => (.allowed answer, sort)

/-- The set of dirty regions has room for all regions. -/
structure Roomy (sort : MessageSort) : Prop where
  wellFormed : sort.dirty.WellFormed
  min : sort.dirty.min = 0
  room : sort.writes.length ≤ sort.dirty.max + 1
  known : ∀ k ∈ sort.dirty.elements, k < sort.writes.length

theorem Tables.roomy {sort : MessageSort} (tables : sort.Tables)
    (known : ∀ k ∈ sort.dirty.elements, k < sort.regions.length) : sort.Roomy where
  wellFormed := tables.dirty
  min := tables.dirtyMin
  room := by
    rw [tables.sameLength]
    exact tables.dirtyRoom
  known := by
    rw [tables.sameLength]
    exact known

/-- Inserting a region appends it unless it is there. -/
theorem Roomy.insert {sort : MessageSort} (roomy : sort.Roomy) {j : ℕ}
    (bound : j < sort.writes.length) (changed : Writes) :
    Roomy { sort with writes := sort.writes.set j changed, dirty := sort.dirty.insert j } ∧
      (sort.dirty.insert j).elements =
        if j ∈ sort.dirty.elements then sort.dirty.elements else sort.dirty.elements ++ [j] := by
  have dirtyMin := roomy.min
  have room := roomy.room
  rcases roomy.wellFormed.mem_insert (x := j) (by omega) (by omega) with ⟨inserted, members⟩
  rcases SparseSet.range_insert sort.dirty j with ⟨sameMin, sameMax⟩
  rw [dirtyMin, Nat.sub_zero] at members
  have contained := roomy.wellFormed.contains_iff (x := j) (by omega) (by omega)
  rw [dirtyMin, Nat.sub_zero] at contained
  refine ⟨⟨inserted, sameMin.trans dirtyMin, ?_, ?_⟩, ?_⟩
  · rw [List.length_set, sameMax]
    exact room
  · intro k member
    rw [List.length_set]
    rcases (members k).mp member with old | rfl
    · exact roomy.known k old
    · exact bound
  · by_cases present : j ∈ sort.dirty.elements
    · rw [if_pos present, SparseSet.insert, if_pos (contained.mpr present)]
    · rw [if_neg present]
      have appended := (roomy.wellFormed.insert (x := j) (by omega) (by omega)
        (fun there => present (contained.mp there))).2
      rw [dirtyMin, Nat.sub_zero] at appended
      exact appended

/-- Erasing a region moves the last one into its place. -/
theorem Roomy.erase {sort : MessageSort} (roomy : sort.Roomy) {j : ℕ}
    (member : j ∈ sort.dirty.elements) (changed : Writes) :
    Roomy { sort with writes := sort.writes.set j changed, dirty := sort.dirty.erase j } ∧
      (sort.dirty.erase j).elements = SparseSet.eraseSwap sort.dirty.elements j := by
  have dirtyMin := roomy.min
  have room := roomy.room
  have bound := roomy.known j member
  have present := (roomy.wellFormed.contains_iff (x := j) (by omega) (by omega)).mpr
    (by rw [dirtyMin]; exact member)
  rcases roomy.wellFormed.erase present with ⟨erased, elements⟩
  rcases SparseSet.range_erase sort.dirty j with ⟨sameMin, sameMax⟩
  rw [dirtyMin, Nat.sub_zero] at elements
  refine ⟨⟨erased, sameMin.trans dirtyMin, ?_, ?_⟩, elements⟩
  · rw [List.length_set, sameMax]
    exact room
  · intro k inErased
    rw [elements] at inErased
    rw [List.length_set]
    exact roomy.known k
      (List.mem_of_mem_erase ((SparseSet.eraseSwap_perm member).mem_iff.mp inErased))

theorem Roomy.fewer {sort : MessageSort} (roomy : sort.Roomy) {j : ℕ}
    (member : j ∈ sort.dirty.elements) (changed : Writes) :
    (sort.dirty.erase j).elements.length < sort.dirty.elements.length := by
  have positive := List.length_pos_of_mem member
  rw [(roomy.erase member changed).2, (SparseSet.eraseSwap_perm member).length_eq,
    List.length_erase_of_mem member]
  exact Nat.sub_lt positive Nat.one_pos

/-- The same up to the representation of the set of dirty regions. -/
structure Twins (first second : MessageSort) : Prop where
  same : ∃ dirty, second = { first with dirty := dirty }
  elements : first.dirty.elements = second.dirty.elements
  roomy : first.Roomy
  roomyToo : second.Roomy

theorem Twins.size {first second : MessageSort} (twins : Twins first second) :
    first.dirty.size = second.dirty.size := by
  rw [← twins.roomy.wellFormed.length_elements, ← twins.roomyToo.wellFormed.length_elements,
    twins.elements]

theorem Roomy.set {sort : MessageSort} (roomy : sort.Roomy) (j : ℕ) (changed : Writes) :
    Roomy { sort with writes := sort.writes.set j changed } where
  wellFormed := roomy.wellFormed
  min := roomy.min
  room := by
    rw [List.length_set]
    exact roomy.room
  known := by
    rw [List.length_set]
    exact roomy.known

theorem Twins.popDirty {first second : MessageSort} (twins : Twins first second) (left : ℕ) :
    MessageSort.popDirty left first = none ∧ MessageSort.popDirty left second = none ∨
      ∃ popped firstAfter secondAfter, MessageSort.popDirty left first = some (popped, firstAfter) ∧
        MessageSort.popDirty left second = some (popped, secondAfter) ∧
        Twins firstAfter secondAfter := by
  induction left generalizing first second with
  | zero => exact Or.inr ⟨none, first, second, rfl, rfl, twins⟩
  | succ left ih =>
      rcases twins with ⟨⟨dirty, rfl⟩, elements, roomy, roomyToo⟩
      simp only at elements
      simp only [MessageSort.popDirty, elements]
      cases listed : dirty.elements with
      | nil => exact Or.inr ⟨none, first, _, rfl, rfl, ⟨⟨dirty, rfl⟩, elements, roomy, roomyToo⟩⟩
      | cons j rest =>
          simp only
          cases found : first.writes[j]? with
          | none => exact Or.inl ⟨rfl, rfl⟩
          | some array =>
              simp only
              cases pops : array.pop with
              | none => exact Or.inl ⟨rfl, rfl⟩
              | some result =>
                  rcases result with ⟨_ | piece, changed⟩
                  · -- the region is forgotten in both
                    have inSecond : j ∈ dirty.elements := by
                      rw [listed]
                      exact List.mem_cons_self
                    have inFirst : j ∈ first.dirty.elements := by
                      rw [elements]
                      exact inSecond
                    rcases roomy.erase inFirst changed with ⟨erased, itsElements⟩
                    rcases roomyToo.erase inSecond changed with ⟨erasedToo, itsElementsToo⟩
                    exact ih
                      ⟨⟨_, rfl⟩, by rw [itsElements, itsElementsToo, elements], erased, erasedToo⟩
                  · simp only [Option.bind_some]
                    cases region : first.regions[j]? with
                    | none => exact Or.inl ⟨rfl, rfl⟩
                    | some r =>
                        exact Or.inr ⟨_, _, _, rfl, rfl,
                          ⟨⟨dirty, rfl⟩, elements, roomy.set j changed, roomyToo.set j changed⟩⟩

theorem Twins.pushWrite {first second : MessageSort} (twins : Twins first second)
    (msgId slot offset size : ℕ) :
    first.pushWrite msgId slot offset size = none ∧ second.pushWrite msgId slot offset size = none ∨
      ∃ result firstAfter secondAfter,
        first.pushWrite msgId slot offset size = some (firstAfter, result) ∧
        second.pushWrite msgId slot offset size = some (secondAfter, result) ∧
        Twins firstAfter secondAfter := by
  rcases twins with ⟨⟨dirty, rfl⟩, elements, roomy, roomyToo⟩
  simp only [MessageSort.pushWrite]
  by_cases nothing : size = 0
  · rw [if_pos nothing, if_pos nothing]
    exact Or.inr ⟨_, _, _, rfl, rfl, ⟨⟨dirty, rfl⟩, elements, roomy, roomyToo⟩⟩
  · rw [if_neg nothing, if_neg nothing]
    cases refers : first.slotToRegion[slot]? with
    | none => exact Or.inl ⟨rfl, rfl⟩
    | some entry =>
        simp only
        cases found : first.writes[entry.region]? with
        | none => exact Or.inl ⟨rfl, rfl⟩
        | some array =>
            simp only
            generalize array.push msgId _ _ = pushed
            cases pushed with
            | none => exact Or.inl ⟨rfl, rfl⟩
            | some changed =>
                have bound : entry.region < first.writes.length :=
                  (List.getElem?_eq_some_iff.mp found).1
                rcases roomy.insert bound changed with ⟨inserted, itsElements⟩
                rcases roomyToo.insert bound changed with ⟨insertedToo, itsElementsToo⟩
                simp only at elements itsElementsToo
                exact Or.inr ⟨_, _, _, rfl, rfl,
                  ⟨⟨_, rfl⟩, by rw [itsElements, itsElementsToo, elements], inserted, insertedToo⟩⟩

/-- States agree on a query if the calls do. -/
theorem agree_ask {related : MessageSort → MessageSort → Prop} {first second : MessageSort}
    (itself : related first second) {query : Query}
    (pushes : ∀ write, query = .pushWrite write →
      first.pushWrite write.msgId write.slot write.offset write.size = none ∧
          second.pushWrite write.msgId write.slot write.offset write.size = none ∨
        ∃ result firstAfter secondAfter,
          first.pushWrite write.msgId write.slot write.offset write.size =
            some (firstAfter, result) ∧
          second.pushWrite write.msgId write.slot write.offset write.size =
            some (secondAfter, result) ∧ related firstAfter secondAfter)
    (pops : first.popWrite = none ∧ second.popWrite = none ∨
      ∃ popped firstAfter secondAfter, first.popWrite = some (popped, firstAfter) ∧
        second.popWrite = some (popped, secondAfter) ∧ related firstAfter secondAfter)
    (allows : ∀ msgId slot offset,
      first.canWrite msgId slot offset = second.canWrite msgId slot offset) :
    Observation.Agree ask related first second query := by
  cases query with
  | pushWrite write =>
      rcases pushes write rfl with
        ⟨fails, failsToo⟩ | ⟨result, firstAfter, secondAfter, pushes, pushesToo, after⟩
      · exact Or.inl ⟨by rw [ask, fails]; rfl, by rw [ask, failsToo]; rfl⟩
      · exact Or.inr ⟨_, firstAfter, secondAfter, by rw [ask, pushes]; rfl,
          by rw [ask, pushesToo]; rfl, after⟩
  | popWrite =>
      rcases pops with ⟨fails, failsToo⟩ | ⟨result, firstAfter, secondAfter, pops, popsToo, after⟩
      · exact Or.inl ⟨by rw [ask, fails]; rfl, by rw [ask, failsToo]; rfl⟩
      · exact Or.inr ⟨_, firstAfter, secondAfter, by rw [ask, pops]; rfl, by rw [ask, popsToo]; rfl,
          after⟩
  | canWrite msgId slot offset =>
      have same := allows msgId slot offset
      cases answers : second.canWrite msgId slot offset with
      | none => exact Or.inl ⟨by rw [ask, same, answers]; rfl, by rw [ask, answers]; rfl⟩
      | some answer =>
          exact Or.inr ⟨_, first, second, by rw [ask, same, answers]; rfl,
            by rw [ask, answers]; rfl, itself⟩

/-- Twins are never told apart. -/
theorem Twins.alike {first second : MessageSort} (twins : Twins first second) :
    Alike ask first second := by
  refine alike_of_agree ?_ twins
  intro first second twins query
  apply agree_ask twins
  · intro write _
    exact twins.pushWrite write.msgId write.slot write.offset write.size
  · have pops := twins.popDirty first.dirty.size
    rw [← MessageSort.popWrite] at pops
    rw [twins.size, ← MessageSort.popWrite] at pops
    exact pops
  · rcases twins.same with ⟨dirty, rfl⟩
    exact fun _ _ _ => rfl

end MessageSort

end Talpf
