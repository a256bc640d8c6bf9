import Talpf.MemoryRegister.Records
import Mathlib.Logic.Relation

/-!
# Reserving both registers

The combined register reserves its global part first and its local part second.
Each of them alone is as it was when its reservation throws, but nothing takes
the global part back when the local one throws.
-/

namespace Talpf

namespace MemoryRegister

variable {Record : Type}

/-- A record is added, or a slot in use is removed. -/
inductive Use (before after : MemoryRegister Record) : Prop where
  | add {record : Record} {slot : ℕ} (adds : before.add record = some (slot, after))
  | remove {slot : ℕ} (live : before.dealer.Live slot) (removes : before.remove slot = some after)

/-- However the register is used from now on, a record finds a place as long as there are fewer
than `size` slots in use. -/
def CanHold (register : MemoryRegister Record) (size : ℕ) : Prop :=
  ∀ later, Relation.ReflTransGen Use register later → later.dealer.liveCount < size →
    ∀ record, (later.add record).isSome

/-- The register has to grow and fails to. -/
def Fails (faults : ReserveFaults) (register : MemoryRegister Record) (size : ℕ) : Prop :=
  register.capacity < size ∧
    (faults.maxSize = true ∨ faults.freeReserve = true ∨ faults.slotsResize = true)

variable {register after left right : MemoryRegister Record} {faults : ReserveFaults}
  {defaultRecord : Record} {size : ℕ}

theorem Use.keeps (use : Use register after) (wellFormed : register.WellFormed) :
    after.WellFormed ∧ after.capacity = register.capacity := by
  cases use with
  | add adds => exact ⟨wellFormed.add adds, capacity_add adds⟩
  | remove live removes =>
      refine ⟨wellFormed.remove live removes, ?_⟩
      rw [capacity, capacity, (remove_cases removes).2.1]

/-- A register with enough slots can hold as many records. -/
theorem WellFormed.canHold (wellFormed : register.WellFormed) (enough : size ≤ register.capacity) :
    register.CanHold size := by
  intro later used room record
  have kept : later.WellFormed ∧ later.capacity = register.capacity := by
    clear room
    induction used with
    | refl => exact ⟨wellFormed, rfl⟩
    | tail _ use ih =>
        rcases use.keeps ih.1 with ⟨wellFormed, same⟩
        exact ⟨wellFormed, same.trans ih.2⟩
  have slot := kept.1.deal_lt (by omega)
  rw [add_eq later record slot]
  rfl

/-- A register that fails to grow throws and keeps its slots. -/
theorem Fails.reserve (fails : Fails faults register size) (defaultRecord : Record) :
    (register.reserve faults defaultRecord size).2 = some .badAlloc ∧
      (register.reserve faults defaultRecord size).1.slots = register.slots := by
  rcases fails with ⟨grows, faulty⟩
  rw [capacity] at grows
  simp only [MemoryRegister.reserve, if_pos grows]
  rcases faulty with faulty | faulty | faulty <;> split_ifs <;> exact ⟨rfl, rfl⟩

/-- A register that does not fail to grow is brought to the requested size, but not below the slots
that were dealt. -/
theorem WellFormed.reserve_succeeds (wellFormed : register.WellFormed)
    (succeeds : ¬Fails faults register size) (defaultRecord : Record) :
    (register.reserve faults defaultRecord size).2 = none ∧
      (register.reserve faults defaultRecord size).1.capacity =
        max size register.minNewSlotNr := by
  have bound := wellFormed.minNewSlotNrLe
  rw [Fails, capacity, not_and] at succeeds
  by_cases grows : register.slots.length < size
  · rcases not_or.mp (succeeds grows) with ⟨maxSize, others⟩
    rcases not_or.mp others with ⟨freeReserve, slotsResize⟩
    simp only [MemoryRegister.reserve, if_pos grows, if_neg maxSize, if_neg freeReserve,
      if_neg slotsResize, capacity, List.length_append, List.length_replicate, true_and]
    omega
  · simp only [MemoryRegister.reserve, if_neg grows, capacity]
    split_ifs <;> simp only [List.length_take, true_and] <;> omega

/-- A register that is brought to the size that it has keeps its slots. -/
theorem reserve_same_size (same : register.capacity = max size register.minNewSlotNr)
    (faults : ReserveFaults) (defaultRecord : Record) :
    (register.reserve faults defaultRecord size).1.slots = register.slots := by
  rw [capacity] at same
  have fits : ¬register.slots.length < size := by omega
  have kept : register.slots.take (max size register.minNewSlotNr) = register.slots :=
    List.take_of_length_le (by omega)
  simp only [MemoryRegister.reserve, if_neg fits]
  split_ifs <;> exact kept

/-- Two registers that store and deal the same. -/
structure Twins (left right : MemoryRegister Record) : Prop where
  wellFormed : left.WellFormed
  wellFormedToo : right.WellFormed
  slots : right.slots = left.slots
  dealer : right.dealer = left.dealer

namespace Twins

theorem refl (wellFormed : register.WellFormed) : Twins register register :=
  ⟨wellFormed, wellFormed, rfl, rfl⟩

theorem eq (twins : Twins left right) :
    right = { left with freeCapacity := right.freeCapacity } := by
  have free := congrArg SlotDealer.free twins.dealer
  have minNew := congrArg SlotDealer.minNewSlotNr twins.dealer
  rcases left with ⟨slots, _, _, _⟩
  rcases right with ⟨_, _, _, _⟩
  simp only [MemoryRegister.dealer] at free minNew
  have sameSlots := twins.slots
  simp only at sameSlots
  rw [sameSlots, free, minNew]

theorem record (twins : Twins left right) : right.record = left.record := by
  rw [twins.eq]
  rfl

theorem capacity (twins : Twins left right) : right.capacity = left.capacity := by
  rw [twins.eq]
  rfl

theorem add (twins : Twins left right) (entry : Record) :
    (left.add entry = none ∧ right.add entry = none) ∨
      ∃ slot leftAfter rightAfter, left.add entry = some (slot, leftAfter) ∧
        right.add entry = some (slot, rightAfter) ∧ Twins leftAfter rightAfter := by
  by_cases room : left.dealer.deal.1 < left.slots.length
  · have roomToo : right.dealer.deal.1 < right.slots.length := by
      rw [twins.dealer, twins.slots]
      exact room
    have adds := add_eq left entry room
    have addsToo := add_eq right entry roomToo
    have slots := (add_cases addsToo).2.2.2.1
    refine Or.inr ⟨_, _, _, adds, by rw [addsToo, twins.dealer], ?_⟩
    refine ⟨twins.wellFormed.add adds, ?_, ?_, rfl⟩
    · rw [← twins.dealer]
      exact twins.wellFormedToo.add addsToo
    · rw [twins.slots]
  · have full : left.add entry = none := by
      by_contra adds
      rcases Option.ne_none_iff_exists'.mp adds with ⟨⟨slot, after⟩, adds⟩
      exact room (add_room adds)
    have fullToo : right.add entry = none := by
      by_contra adds
      rcases Option.ne_none_iff_exists'.mp adds with ⟨⟨slot, after⟩, adds⟩
      have roomToo := add_room adds
      rw [twins.dealer, twins.slots] at roomToo
      exact room roomToo
    exact Or.inl ⟨full, fullToo⟩

theorem remove (twins : Twins left right) {slot : ℕ} (live : left.dealer.Live slot) :
    ∃ leftAfter rightAfter, left.remove slot = some leftAfter ∧
      right.remove slot = some rightAfter ∧ Twins leftAfter rightAfter := by
  have liveToo : right.dealer.Live slot := twins.dealer ▸ live
  rcases Option.isSome_iff_exists.mp (twins.wellFormed.remove_isSome live) with
    ⟨leftAfter, removes⟩
  rcases Option.isSome_iff_exists.mp (twins.wellFormedToo.remove_isSome liveToo) with
    ⟨rightAfter, removesToo⟩
  rcases remove_cases removes with ⟨dealer, slots, _⟩
  rcases remove_cases removesToo with ⟨dealerToo, slotsToo, _⟩
  refine ⟨leftAfter, rightAfter, removes, removesToo, twins.wellFormed.remove live removes,
    twins.wellFormedToo.remove liveToo removesToo, ?_, ?_⟩
  · rw [slots, slotsToo, twins.slots]
  · rw [dealer, dealerToo, twins.dealer]

/-- A reservation that keeps the slots changes nothing but the memory of the stack. -/
theorem reserve (wellFormed : register.WellFormed)
    (slots : (register.reserve faults defaultRecord size).1.slots = register.slots) :
    Twins register (register.reserve faults defaultRecord size).1 :=
  ⟨wellFormed, wellFormed.reserve faults defaultRecord size, slots,
    dealer_reserve faults defaultRecord register size⟩

end Twins

end MemoryRegister

namespace CombinedMemoryRegister

variable {Record : Type}

/-- The registers that the calls of a program lead to; a `reserve` may fail in any way. -/
inductive Arises : CombinedMemoryRegister Record → Prop where
  | empty : Arises .empty
  | addLocalReg {before after : CombinedMemoryRegister Record} {record : Record} {slot : ℕ}
      (arises : Arises before) (adds : before.addLocalReg record = some (slot, after)) :
      Arises after
  | addGlobalReg {before after : CombinedMemoryRegister Record} {record : Record} {slot : ℕ}
      (arises : Arises before) (adds : before.addGlobalReg record = some (slot, after)) :
      Arises after
  | removeReg {before after : CombinedMemoryRegister Record} {slot : ℕ} (arises : Arises before)
      (live : (before.record slot).isSome) (removes : before.removeReg slot = some after) :
      Arises after
  | update {before : CombinedMemoryRegister Record} (arises : Arises before) (slot : ℕ)
      (change : Record → Record) : Arises (before.update slot change)
  | reserve {before : CombinedMemoryRegister Record} (arises : Arises before)
      (globalFaults localFaults : ReserveFaults) (defaultRecord : Record) (size : ℕ) :
      Arises (before.reserve globalFaults localFaults defaultRecord size).1

theorem Arises.wellFormed {register : CombinedMemoryRegister Record}
    (arises : Arises register) : register.WellFormed := by
  induction arises with
  | empty => exact wellFormed_empty
  | addLocalReg _ adds ih =>
      rcases Option.map_eq_some_iff.mp adds with ⟨⟨dealt, grown⟩, grows, result⟩
      cases result
      exact ⟨ih.localRegister.add grows, ih.globalRegister⟩
  | addGlobalReg _ adds ih =>
      rcases Option.map_eq_some_iff.mp adds with ⟨⟨dealt, grown⟩, grows, result⟩
      cases result
      exact ⟨ih.localRegister, ih.globalRegister.add grows⟩
  | removeReg _ live removes ih =>
      rcases Option.isSome_iff_exists.mp live with ⟨entry, found⟩
      exact (ih.removeReg found removes).1
  | update _ slot change ih =>
      rw [CombinedMemoryRegister.update]
      split
      next => exact ⟨ih.localRegister.update _ change, ih.globalRegister⟩
      next => exact ⟨ih.localRegister, ih.globalRegister.update _ change⟩
  | reserve _ globalFaults localFaults defaultRecord size ih =>
      exact (ih.reserve globalFaults localFaults defaultRecord size).1

/-- The calls that deal slots and give them back. -/
inductive SlotCall (Record : Type) where
  | addLocalReg (record : Record)
  | addGlobalReg (record : Record)
  | removeReg (slot : ℕ)

/-- The register after a call and the slot that it dealt.  `none` is a failed assertion, or the
removal of a slot that is not in use. -/
def perform (register : CombinedMemoryRegister Record) :
    SlotCall Record → Option (CombinedMemoryRegister Record × Option ℕ)
  | .addLocalReg record =>
      (register.addLocalReg record).map fun (slot, after) => (after, some slot)
  | .addGlobalReg record =>
      (register.addGlobalReg record).map fun (slot, after) => (after, some slot)
  | .removeReg slot =>
      if (register.record slot).isSome then
        (register.removeReg slot).map fun after => (after, none)
      else none

/-- The slots that a sequence of calls is dealt. -/
def deals (register : CombinedMemoryRegister Record) : List (SlotCall Record) → Option (List ℕ)
  | [] => some []
  | call :: calls =>
      (register.perform call).bind fun (after, dealt) =>
        (after.deals calls).map fun slots => dealt.toList ++ slots

/-- Nothing that can be observed has changed. -/
structure Unchanged (before after : CombinedMemoryRegister Record) : Prop where
  capacity : after.capacity = before.capacity
  range : after.range = before.range
  record : after.record = before.record
  deals : ∀ calls, after.deals calls = before.deals calls

/-- A reservation that throws changes nothing, and one that returns makes room in both parts. -/
def StrongGuarantee (globalFaults localFaults : ReserveFaults) (defaultRecord : Record)
    (register : CombinedMemoryRegister Record) (size : ℕ) : Prop :=
  match register.reserve globalFaults localFaults defaultRecord size with
  | (after, some _) => Unchanged register after
  | (after, none) => after.localRegister.CanHold size ∧ after.globalRegister.CanHold size

variable {left right : CombinedMemoryRegister Record}

structure Twins (left right : CombinedMemoryRegister Record) : Prop where
  localRegister : left.localRegister.Twins right.localRegister
  globalRegister : left.globalRegister.Twins right.globalRegister

theorem Twins.record (twins : Twins left right) : right.record = left.record := by
  funext slot
  simp only [CombinedMemoryRegister.record, twins.localRegister.record,
    twins.globalRegister.record]

theorem Twins.perform (twins : Twins left right) (call : SlotCall Record) :
    (left.perform call = none ∧ right.perform call = none) ∨
      ∃ dealt leftAfter rightAfter, left.perform call = some (leftAfter, dealt) ∧
        right.perform call = some (rightAfter, dealt) ∧ Twins leftAfter rightAfter := by
  cases call with
  | addLocalReg entry =>
      simp only [CombinedMemoryRegister.perform, addLocalReg]
      rcases twins.localRegister.add entry with ⟨full, fullToo⟩ |
        ⟨slot, leftAfter, rightAfter, adds, addsToo, after⟩
      · rw [full, fullToo]
        exact Or.inl ⟨rfl, rfl⟩
      · rw [adds, addsToo]
        exact Or.inr ⟨_, _, _, rfl, rfl, after, twins.globalRegister⟩
  | addGlobalReg entry =>
      simp only [CombinedMemoryRegister.perform, addGlobalReg]
      rcases twins.globalRegister.add entry with ⟨full, fullToo⟩ |
        ⟨slot, leftAfter, rightAfter, adds, addsToo, after⟩
      · rw [full, fullToo]
        exact Or.inl ⟨rfl, rfl⟩
      · rw [adds, addsToo]
        exact Or.inr ⟨_, _, _, rfl, rfl, twins.localRegister, after⟩
  | removeReg slot =>
      simp only [CombinedMemoryRegister.perform, twins.record]
      by_cases live : (left.record slot).isSome
      · rw [if_pos live, if_pos live]
        rcases Option.isSome_iff_exists.mp live with ⟨entry, found⟩
        rw [CombinedMemoryRegister.record] at found
        right
        simp only [removeReg]
        split at found
        next isLocal =>
          rcases twins.localRegister.remove (MemoryRegister.live_of_record found).1 with
            ⟨leftAfter, rightAfter, removes, removesToo, after⟩
          rw [if_pos isLocal, if_pos isLocal, removes, removesToo]
          exact ⟨_, _, _, rfl, rfl, after, twins.globalRegister⟩
        next isGlobal =>
          rcases twins.globalRegister.remove (MemoryRegister.live_of_record found).1 with
            ⟨leftAfter, rightAfter, removes, removesToo, after⟩
          rw [if_neg isGlobal, if_neg isGlobal, removes, removesToo]
          exact ⟨_, _, _, rfl, rfl, twins.localRegister, after⟩
      · rw [if_neg live, if_neg live]
        exact Or.inl ⟨rfl, rfl⟩

/-- Twins are dealt the same slots. -/
theorem Twins.deals (twins : Twins left right) (calls : List (SlotCall Record)) :
    right.deals calls = left.deals calls := by
  induction calls generalizing left right with
  | nil => rfl
  | cons call calls ih =>
      rw [CombinedMemoryRegister.deals, CombinedMemoryRegister.deals]
      rcases twins.perform call with ⟨fails, failsToo⟩ |
        ⟨dealt, leftAfter, rightAfter, performs, performsToo, after⟩
      · rw [fails, failsToo]
      · rw [performs, performsToo]
        exact congrArg (Option.map fun slots => dealt.toList ++ slots) (ih after)

theorem Twins.unchanged (twins : Twins left right) : Unchanged left right where
  capacity := by
    rw [capacity, capacity, twins.globalRegister.capacity, twins.localRegister.capacity]
  range := by rw [range, range, twins.globalRegister.capacity, twins.localRegister.capacity]
  record := twins.record
  deals := twins.deals

section Reserving

variable {register : CombinedMemoryRegister Record} {globalFaults localFaults : ReserveFaults}
  {defaultRecord : Record} {size : ℕ}

/-- If the global part fails to grow, the local one is not reached. -/
theorem reserve_of_fails (fails : register.globalRegister.Fails globalFaults size) :
    register.reserve globalFaults localFaults defaultRecord size =
      (⟨register.localRegister,
        (register.globalRegister.reserve globalFaults defaultRecord size).1⟩, some .badAlloc) := by
  have throws := (fails.reserve defaultRecord).1
  rw [reserve]
  generalize register.globalRegister.reserve globalFaults defaultRecord size = outcome at throws
  rcases outcome with ⟨globalRegister, thrown⟩
  rw [show thrown = some .badAlloc from throws]

/-- Otherwise the local part decides whether the reservation throws. -/
theorem reserve_of_succeeds (wellFormed : register.WellFormed)
    (succeeds : ¬register.globalRegister.Fails globalFaults size) :
    register.reserve globalFaults localFaults defaultRecord size =
      (⟨(register.localRegister.reserve localFaults defaultRecord size).1,
        (register.globalRegister.reserve globalFaults defaultRecord size).1⟩,
        (register.localRegister.reserve localFaults defaultRecord size).2) := by
  have returns := (wellFormed.globalRegister.reserve_succeeds succeeds defaultRecord).1
  rw [reserve]
  generalize register.globalRegister.reserve globalFaults defaultRecord size = outcome at returns
  rcases outcome with ⟨globalRegister, thrown⟩
  rw [show thrown = none from returns]

/-- If the local part fails to grow, the resized global part stays. -/
theorem unchanged_iff (wellFormed : register.WellFormed)
    (succeeds : ¬register.globalRegister.Fails globalFaults size)
    (fails : register.localRegister.Fails localFaults size) (defaultRecord : Record) :
    Unchanged register ⟨(register.localRegister.reserve localFaults defaultRecord size).1,
        (register.globalRegister.reserve globalFaults defaultRecord size).1⟩ ↔
      register.globalRegister.capacity = max size register.globalRegister.minNewSlotNr := by
  have globalSize := (wellFormed.globalRegister.reserve_succeeds succeeds defaultRecord).2
  have localSlots := (fails.reserve defaultRecord).2
  have localTwins := MemoryRegister.Twins.reserve wellFormed.localRegister localSlots
  constructor
  · intro unchanged
    have small := fails.1
    have sameRange := unchanged.range
    simp only [range, globalSize, localTwins.capacity] at sameRange
    omega
  · intro sameSize
    have globalSlots := MemoryRegister.reserve_same_size sameSize globalFaults
      defaultRecord
    have globalTwins := MemoryRegister.Twins.reserve wellFormed.globalRegister globalSlots
    exact Twins.unchanged ⟨localTwins, globalTwins⟩

/--
A reservation keeps its strong guarantee if and only if the local part does not
fail to grow after the global part has been resized.
-/
theorem strongGuarantee_iff (arises : Arises register) :
    StrongGuarantee globalFaults localFaults defaultRecord register size ↔
      (register.localRegister.Fails localFaults size →
        register.globalRegister.Fails globalFaults size ∨
          register.globalRegister.capacity =
            max size register.globalRegister.minNewSlotNr) := by
  have wellFormed := arises.wellFormed
  rw [StrongGuarantee]
  by_cases globalFails : register.globalRegister.Fails globalFaults size
  · have slots := (globalFails.reserve defaultRecord).2
    have globalTwins := MemoryRegister.Twins.reserve wellFormed.globalRegister slots
    have unchanged : Unchanged register ⟨register.localRegister,
        (register.globalRegister.reserve globalFaults defaultRecord size).1⟩ :=
      Twins.unchanged ⟨.refl wellFormed.localRegister, globalTwins⟩
    rw [reserve_of_fails globalFails]
    exact ⟨fun _ _ => Or.inl globalFails, fun _ => unchanged⟩
  rw [reserve_of_succeeds wellFormed globalFails]
  by_cases localFails : register.localRegister.Fails localFaults size
  · rw [(localFails.reserve defaultRecord).1]
    have resized := unchanged_iff wellFormed globalFails localFails defaultRecord
    exact resized.trans ⟨fun same _ => Or.inr same,
      fun condition => (condition localFails).resolve_left globalFails⟩
  · have globals := wellFormed.globalRegister.reserve_succeeds globalFails defaultRecord
    have locals := wellFormed.localRegister.reserve_succeeds localFails defaultRecord
    rw [locals.1]
    refine ⟨fun _ fails => absurd fails localFails, fun _ => ⟨?_, ?_⟩⟩
    · exact (wellFormed.localRegister.reserve localFaults defaultRecord size).canHold (by omega)
    · exact (wellFormed.globalRegister.reserve globalFaults defaultRecord size).canHold (by omega)

end Reserving

/-- The slots of the local part cannot be allocated. -/
def noSlots : ReserveFaults := ⟨false, false, true, false⟩

/-- A register with room for two slots of each kind, one of which is in use. -/
def oneGlobal : CombinedMemoryRegister ℕ :=
  ⟨⟨[0, 0], [], 2, 0⟩, ⟨[7, 0], [], 2, 1⟩⟩

/-- The global part cannot grow either, and so a reservation that throws changes nothing. -/
theorem strongGuarantee_oneGlobal : oneGlobal.record 0 = some 7 ∧
    (oneGlobal.reserve noSlots noSlots 0 3).2 = some .badAlloc ∧
    StrongGuarantee noSlots noSlots 0 oneGlobal 3 := by
  have reserved : Arises (empty.reserve .none .none 0 2).1 := .reserve .empty .none .none 0 2
  have adds : (empty.reserve .none .none 0 2).1.addGlobalReg 7 = some (0, oneGlobal) := rfl
  have arises : Arises oneGlobal := .addGlobalReg reserved adds
  have globalFails : oneGlobal.globalRegister.Fails noSlots 3 := ⟨by decide, by decide⟩
  exact ⟨by decide, rfl, (strongGuarantee_iff arises).mpr fun _ => Or.inl globalFails⟩

/-- The range of an empty register grows although its reservation throws. -/
theorem not_strongGuarantee : ¬StrongGuarantee .none noSlots () empty 2 := by
  intro unchanged
  exact absurd unchanged.range (by decide)

end CombinedMemoryRegister

end Talpf
