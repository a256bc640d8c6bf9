import Talpf.MessageSort.Runs

/-!
# Setting the slot range in part

The tables of slots grow one after the other, so that the first one is longer
than the second one after an allocation has failed.  Its additional entries are
vacant, and the message sort works on as if they were not there.
-/

namespace Talpf

namespace MessageSort

variable {sort after : MessageSort} {id base size range : ℕ}

/-- The message sort without the slots that only one of its tables has. -/
def trim (sort : MessageSort) : MessageSort :=
  { sort with memslots := sort.memslots.take sort.slotToRegion.length }

/-- The tables are sound but for vacant slots that only one of them has. -/
structure Prefixed (sort : MessageSort) : Prop where
  sound : sort.trim.Sound
  unmarked : sort.Unmarked
  longer : sort.slotToRegion.length ≤ sort.memslots.length
  vacant : sort.memslots.drop sort.slotToRegion.length =
    List.replicate (sort.memslots.length - sort.slotToRegion.length) ⟨0, 0, 0⟩

theorem prefixed_initial (msgGrainPower : ℕ) : (initial msgGrainPower).Prefixed where
  sound := sound_initial msgGrainPower
  unmarked := unmarked_initial msgGrainPower
  longer := Nat.le_refl 0
  vacant := rfl

theorem storeRegion_memslots (sort : MessageSort) (memslots : List Slot) (newRegion : Region)
    (range : List Region) :
    storeRegion { sort with memslots := memslots } newRegion range =
      (storeRegion sort newRegion range).map fun after => { after with memslots := memslots } := by
  unfold storeRegion
  split
  next => rfl
  next =>
    cases sort.writes[newRegion.region]? with
    | none => rfl
    | some array =>
        simp only [Option.map_map]
        rfl

theorem storeRegion_slots {newRegion : Region} {range : List Region}
    (stores : storeRegion sort newRegion range = some after) :
    after.memslots = sort.memslots ∧ after.slotToRegion = sort.slotToRegion := by
  unfold storeRegion at stores
  split at stores
  next =>
    cases stores
    exact ⟨rfl, rfl⟩
  next =>
    split at stores
    next => cases stores
    next =>
      rcases Option.map_eq_some_iff.mp stores with ⟨_, _, rfl⟩
      exact ⟨rfl, rfl⟩

/-- Registering a slot does not look at slots beyond the shorter table. -/
theorem addRegister_of_trim (longer : sort.slotToRegion.length ≤ sort.memslots.length)
    (inRange : id < sort.slotToRegion.length)
    (adds : sort.trim.addRegister id base size = some after) :
    sort.addRegister id base size =
      some { after with memslots := sort.memslots.set id ⟨id, base, size⟩ } := by
  simp only [addRegister, trim] at adds ⊢
  generalize equalRange sort.sortedRegions ⟨sort.regions.length, base, size⟩ = ranges at adds ⊢
  rcases ranges with ⟨before, merged, behind⟩
  simp only at adds ⊢
  generalize extent ⟨sort.regions.length, base, size⟩ merged = newRegion at adds ⊢
  rw [storeRegion_memslots { sort with
    dirty := growDirty sort.regions.length sort.regions.length sort.dirty }] at adds
  generalize stores : storeRegion { sort with
    dirty := growDirty sort.regions.length sort.regions.length sort.dirty } newRegion merged =
      outcome at adds ⊢
  cases outcome with
  | none => cases adds
  | some stored =>
      rcases storeRegion_slots stores with ⟨sameMemslots, sameSlotToRegion⟩
      simp only at sameMemslots sameSlotToRegion
      simp only [Option.map_some, Option.bind_some, sameMemslots, sameSlotToRegion,
        List.length_take, Nat.min_eq_left longer] at adds ⊢
      rw [if_pos ⟨inRange, inRange⟩, Option.some.injEq] at adds
      rw [if_pos ⟨Nat.lt_of_lt_of_le inRange longer, inRange⟩, ← adds]
      -- the bases that are looked up are those of slots in both tables
      have sameBases : sort.slotToRegion.mapIdx (fun s entry => redirect merged newRegion
          (((sort.memslots.set id ⟨id, base, size⟩)[s]?.map Slot.base).getD 0) entry) =
          sort.slotToRegion.mapIdx (fun s entry => redirect merged newRegion
            ((((sort.memslots.take sort.slotToRegion.length).set id
              ⟨id, base, size⟩)[s]?.map Slot.base).getD 0) entry) := by
        apply List.ext_getElem (by simp)
        intro s inside _
        rw [List.length_mapIdx] at inside
        simp only [List.getElem_mapIdx, ← List.take_set, List.getElem?_take_of_lt inside]
      rw [sameBases]

namespace Prefixed

theorem addRegister (prefixed : sort.Prefixed) (inRange : id < sort.slotToRegion.length)
    (nonempty : 0 < size) (address : base + size ≤ sizeMax) :
    ∃ after, sort.addRegister id base size = some after ∧ after.Prefixed ∧
      after.memslots.length = sort.memslots.length ∧
      after.slotToRegion.length = sort.slotToRegion.length := by
  have longer := prefixed.longer
  have inside : id < sort.trim.memslots.length := by
    simp only [trim, List.length_take, Nat.min_eq_left longer]
    exact inRange
  have unmarked : sort.trim.Unmarked := prefixed.unmarked
  rcases prefixed.sound.addRegister unmarked inside nonempty address with ⟨trimmed, adds, sound, _⟩
  rcases prefixed.sound.tables.addRegister unmarked inside nonempty address with
    ⟨_, again, registers⟩
  rw [adds, Option.some.injEq] at again
  subst again
  have slotRange : trimmed.slotToRegion.length = sort.slotToRegion.length := registers.slotRange
  refine ⟨_, addRegister_of_trim longer inRange adds, ⟨?_, registers.unmarked, ?_, ?_⟩, ?_,
    slotRange⟩
  · have same : trim { trimmed with memslots := sort.memslots.set id ⟨id, base, size⟩ } =
        trimmed := by
      simp only [trim, slotRange, List.take_set]
      rw [← show trimmed.memslots = (sort.memslots.take sort.slotToRegion.length).set id
        ⟨id, base, size⟩ from registers.memslots]
    rw [same]
    exact sound
  · simp only [slotRange, List.length_set]
    exact longer
  · simp only [slotRange, List.length_set, List.drop_set, if_pos inRange]
    exact prefixed.vacant
  · exact List.length_set

theorem delRegister (prefixed : sort.Prefixed) (inRange : id < sort.slotToRegion.length) :
    ∃ after, sort.delRegister id = some after ∧ after.Prefixed ∧
      after.memslots.length = sort.memslots.length ∧
      after.slotToRegion.length = sort.slotToRegion.length := by
  have longer := prefixed.longer
  have inside : id < sort.trim.memslots.length := by
    simp only [trim, List.length_take, Nat.min_eq_left longer]
    exact inRange
  rcases prefixed.sound.delRegister inside with ⟨trimmed, removes, sound, _⟩
  rw [MessageSort.delRegister, if_pos ⟨inside, inRange⟩, Option.some.injEq] at removes
  refine ⟨_, if_pos ⟨Nat.lt_of_lt_of_le inRange longer, inRange⟩, ⟨?_, prefixed.unmarked, ?_, ?_⟩,
    List.length_set, List.length_set⟩
  · rw [← removes] at sound
    simp only [trim, List.length_set, List.take_set] at sound ⊢
    exact sound
  · simp only [List.length_set]
    exact longer
  · simp only [List.length_set, List.drop_set, if_pos inRange]
    exact prefixed.vacant

theorem resizeVector_take (prefixed : sort.Prefixed) (grows : sort.memslots.length ≤ range) :
    resizeVector ⟨0, 0, 0⟩ range (sort.memslots.take sort.slotToRegion.length) =
      resizeVector ⟨0, 0, 0⟩ range sort.memslots := by
  have longer := prefixed.longer
  have shorter : (sort.memslots.take sort.slotToRegion.length).length ≤ range := by
    rw [List.length_take]
    omega
  have split := List.take_append_drop sort.slotToRegion.length sort.memslots
  rw [prefixed.vacant] at split
  rw [resizeVector, resizeVector, List.take_of_length_le shorter, List.take_of_length_le grows,
    List.length_take, Nat.min_eq_left longer]
  have count : range - sort.slotToRegion.length =
      (sort.memslots.length - sort.slotToRegion.length) + (range - sort.memslots.length) := by
    omega
  rw [count, ← List.replicate_append_replicate, ← List.append_assoc, split]

/-- The first table may grow alone. -/
theorem growMemslots (prefixed : sort.Prefixed) (grows : sort.memslots.length ≤ range) :
    Prefixed { sort with memslots := resizeVector ⟨0, 0, 0⟩ range sort.memslots } := by
  have longer := prefixed.longer
  have vacant := prefixed.vacant
  have length := length_resizeVector (⟨0, 0, 0⟩ : Slot) grows
  refine ⟨?_, prefixed.unmarked, ?_, ?_⟩
  · have same : trim { sort with memslots := resizeVector ⟨0, 0, 0⟩ range sort.memslots } =
        sort.trim := by
      simp only [trim, resizeVector, List.take_of_length_le grows]
      rw [List.take_append_of_le_length longer]
    rw [same]
    exact prefixed.sound
  · simp only [length]
    exact Nat.le_trans longer grows
  · simp only [length]
    rw [resizeVector, List.take_of_length_le grows, List.drop_append_of_le_length longer, vacant,
      List.replicate_append_replicate]
    congr 1
    omega

/-- The tables grow together as far as they do not throw. -/
theorem setSlotRange (prefixed : sort.Prefixed) (grows : sort.memslots.length ≤ range)
    (faults : SlotRangeFaults) :
    (sort.setSlotRange faults range).1.Prefixed ∧
      (sort.setSlotRange faults range).1.memslots.length ≤ range ∧
      sort.slotToRegion.length ≤ (sort.setSlotRange faults range).1.slotToRegion.length ∧
      ((sort.setSlotRange faults range).2 = none →
        (sort.setSlotRange faults range).1.slotToRegion.length = range) := by
  have grown := prefixed.growMemslots grows
  have longer := prefixed.longer
  have length := length_resizeVector (⟨0, 0, 0⟩ : Slot) grows
  have slotRange := length_resizeVector (⟨0, 0⟩ : SlotToRegion) (Nat.le_trans longer grows)
  unfold MessageSort.setSlotRange
  split
  next => exact ⟨prefixed, grows, Nat.le_refl _, fun impossible => by cases impossible⟩
  next =>
    split
    next => exact ⟨grown, length.le, Nat.le_refl _, fun impossible => by cases impossible⟩
    next =>
      split
      next => exact ⟨grown, length.le, Nat.le_refl _, fun impossible => by cases impossible⟩
      next =>
        refine ⟨⟨?_, prefixed.unmarked, ?_, ?_⟩, length.le, ?_, fun _ => slotRange⟩
        · have shorter : sort.trim.memslots.length ≤ range := by
            simp only [trim, List.length_take]
            omega
          have sound := prefixed.sound.setSlotRange shorter
          have same : resizeVector ⟨0, 0, 0⟩ range sort.trim.memslots =
              resizeVector ⟨0, 0, 0⟩ range sort.memslots :=
            prefixed.resizeVector_take grows
          change Sound { sort with
            memslots := resizeVector ⟨0, 0, 0⟩ range sort.trim.memslots
            slotToRegion := resizeVector ⟨0, 0⟩ range sort.slotToRegion } at sound
          rw [same] at sound
          simp only [trim, slotRange, List.take_of_length_le length.le]
          exact sound
        · simp only [length, slotRange]
          exact Nat.le_refl _
        · simp only [slotRange]
          rw [List.drop_of_length_le length.le, length, Nat.sub_self]
          rfl
        · simp only [slotRange]
          exact Nat.le_trans longer grows

end Prefixed

end MessageSort

end Talpf
