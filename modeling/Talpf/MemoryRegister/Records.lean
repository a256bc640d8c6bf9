import Talpf.MemoryRegister

/-!
# The records of slots in use

The record of a slot counts only while the slot is in use.  Seen as a partial
map, a register changes by one entry with every call that adds, removes or
updates a record, and not at all when it is resized.
-/

namespace Talpf

namespace MemoryRegister

variable {Record : Type}

/-- The record of a slot that is in use. -/
def record (register : MemoryRegister Record) (slot : ℕ) : Option Record :=
  if register.dealer.Live slot then register.lookup slot else none

@[simp]
theorem record_empty (slot : ℕ) : (empty : MemoryRegister Record).record slot = none :=
  if_neg (SlotDealer.not_live_initial slot)

variable {register after : MemoryRegister Record} {entry : Record} {slot : ℕ}

theorem live_of_record (found : register.record slot = some entry) :
    register.dealer.Live slot ∧ register.lookup slot = some entry := by
  rw [record] at found
  split at found
  next live => exact ⟨live, found⟩
  next => cases found

theorem WellFormed.record_add (wellFormed : register.WellFormed)
    (added : register.add entry = some (slot, after)) :
    after.record = Function.update register.record slot (some entry) := by
  rcases add_cases added with ⟨isDealt, dealer, _⟩
  funext other
  rw [record, lookup_add added, dealer, Function.update_apply]
  simp only [wellFormed.dealer.live_deal, ← isDealt]
  by_cases same : other = slot
  · rw [if_pos (Or.inr same), if_pos same.symm, if_pos same]
  · rw [if_neg (Ne.symm same), if_neg same, record]
    simp only [same, or_false]

theorem record_remove (live : register.dealer.Live slot)
    (removed : register.remove slot = some after) :
    after.record = Function.update register.record slot none := by
  rcases remove_cases removed with ⟨dealer, sameSlots, _⟩
  funext other
  rw [record, lookup, sameSlots, dealer, Function.update_apply]
  simp only [SlotDealer.live_recycle _ live]
  by_cases same : other = slot
  · rw [if_neg (fun both => both.2 same), if_pos same]
  · rw [if_neg same, record, lookup]
    simp only [ne_eq, same, not_false_eq_true, and_true]

theorem record_update (register : MemoryRegister Record) (slot : ℕ) (change : Record → Record) :
    (register.update slot change).record =
      Function.update register.record slot ((register.record slot).map change) := by
  funext other
  rw [record, lookup_update, dealer_update, Function.update_apply]
  by_cases same : other = slot
  · rw [if_pos same.symm, if_pos same, same, record]
    split <;> rfl
  · rw [if_neg (Ne.symm same), if_neg same, record]

theorem WellFormed.record_reserve (wellFormed : register.WellFormed) (faults : ReserveFaults)
    (defaultRecord : Record) (newSize : ℕ) :
    (register.reserve faults defaultRecord newSize).1.record = register.record := by
  funext slot
  rw [record, record, dealer_reserve]
  split
  next live => exact wellFormed.lookup_reserve faults defaultRecord newSize live.1
  next => rfl

end MemoryRegister

namespace CombinedMemoryRegister

variable {Record : Type}

structure WellFormed (register : CombinedMemoryRegister Record) : Prop where
  localRegister : register.localRegister.WellFormed
  globalRegister : register.globalRegister.WellFormed

theorem wellFormed_empty : (empty : CombinedMemoryRegister Record).WellFormed :=
  ⟨MemoryRegister.wellFormed_empty, MemoryRegister.wellFormed_empty⟩

/-- The record of a slot that is in use. -/
def record (register : CombinedMemoryRegister Record) (slot : ℕ) : Option Record :=
  if isLocalSlot slot then register.localRegister.record (fromLocal slot)
  else register.globalRegister.record (fromGlobal slot)

theorem lookup_of_record {register : CombinedMemoryRegister Record} {slot : ℕ} {entry : Record}
    (found : register.record slot = some entry) : register.lookup slot = some entry := by
  rw [record] at found
  rw [lookup]
  split at found
  next isLocal =>
    rw [if_pos isLocal]
    exact (MemoryRegister.live_of_record found).2
  next isGlobal =>
    rw [if_neg isGlobal]
    exact (MemoryRegister.live_of_record found).2

theorem toLocal_fromLocal {slot : ℕ} (isLocal : isLocalSlot slot = true) :
    toLocal (fromLocal slot) = slot := by
  rw [isLocalSlot, beq_iff_eq] at isLocal
  rw [toLocal, fromLocal]
  omega

theorem toGlobal_fromGlobal {slot : ℕ} (isGlobal : isLocalSlot slot = false) :
    toGlobal (fromGlobal slot) = slot := by
  rw [isLocalSlot, beq_eq_false_iff_ne] at isGlobal
  rw [toGlobal, fromGlobal]
  omega

variable {register after : CombinedMemoryRegister Record} {entry : Record} {slot : ℕ}

/-- A change of one entry of the local register. -/
theorem record_of_local {grown : MemoryRegister Record} {value : Option Record} {slot : ℕ}
    (changes : grown.record = Function.update register.localRegister.record slot value) :
    ({ register with localRegister := grown } : CombinedMemoryRegister Record).record =
      Function.update register.record (toLocal slot) value := by
  funext other
  rw [record, Function.update_apply, record]
  cases isLocal : isLocalSlot other with
  | true =>
      have same : other = toLocal slot ↔ fromLocal other = slot := by
        constructor
        · rintro rfl
          exact fromLocal_toLocal slot
        · rintro rfl
          exact (toLocal_fromLocal isLocal).symm
      simp only [if_true, changes, Function.update_apply, same]
  | false =>
      have differs : other ≠ toLocal slot := by
        rintro rfl
        rw [isLocalSlot_toLocal] at isLocal
        cases isLocal
      simp only [Bool.false_eq_true, if_false, if_neg differs]

/-- A change of one entry of the global register. -/
theorem record_of_global {grown : MemoryRegister Record} {value : Option Record} {slot : ℕ}
    (changes : grown.record = Function.update register.globalRegister.record slot value) :
    ({ register with globalRegister := grown } : CombinedMemoryRegister Record).record =
      Function.update register.record (toGlobal slot) value := by
  funext other
  rw [record, Function.update_apply, record]
  cases isLocal : isLocalSlot other with
  | true =>
      have differs : other ≠ toGlobal slot := by
        rintro rfl
        rw [isLocalSlot_toGlobal] at isLocal
        cases isLocal
      simp only [if_true, if_neg differs]
  | false =>
      have same : other = toGlobal slot ↔ fromGlobal other = slot := by
        constructor
        · rintro rfl
          exact fromGlobal_toGlobal slot
        · rintro rfl
          exact (toGlobal_fromGlobal isLocal).symm
      simp only [Bool.false_eq_true, if_false, changes, Function.update_apply, same]

/-- A record that is stored under a new local slot and then changed in place. -/
theorem WellFormed.addLocalReg (wellFormed : register.WellFormed)
    (added : register.addLocalReg entry = some (slot, after)) (change : Record → Record) :
    (after.update slot change).WellFormed ∧ isLocalSlot slot = true ∧
      (after.update slot change).globalRegister = register.globalRegister ∧
      (after.update slot change).record =
        Function.update register.record slot (some (change entry)) := by
  rcases Option.map_eq_some_iff.mp added with ⟨⟨dealt, grown⟩, adds, result⟩
  rw [Prod.mk.injEq] at result
  rcases result with ⟨rfl, rfl⟩
  have stored : (grown.update dealt change).record =
      Function.update register.localRegister.record dealt (some (change entry)) := by
    rw [MemoryRegister.record_update, wellFormed.localRegister.record_add adds,
      Function.update_self, Function.update_idem, Option.map_some]
  rw [update_toLocal]
  refine ⟨⟨?_, wellFormed.globalRegister⟩, isLocalSlot_toLocal dealt, rfl, record_of_local stored⟩
  exact (wellFormed.localRegister.add adds).update dealt change

/-- A record that is stored under a new global slot and then changed in place. -/
theorem WellFormed.addGlobalReg (wellFormed : register.WellFormed)
    (added : register.addGlobalReg entry = some (slot, after)) (change : Record → Record) :
    (after.update slot change).WellFormed ∧
      slot = toGlobal register.globalRegister.dealer.deal.1 ∧
      (after.update slot change).globalRegister.dealer =
        register.globalRegister.dealer.deal.2 ∧
      (after.update slot change).record =
        Function.update register.record slot (some (change entry)) := by
  rcases Option.map_eq_some_iff.mp added with ⟨⟨dealt, grown⟩, adds, result⟩
  rw [Prod.mk.injEq] at result
  rcases result with ⟨rfl, rfl⟩
  rcases MemoryRegister.add_cases adds with ⟨isDealt, dealer, _⟩
  have stored : (grown.update dealt change).record =
      Function.update register.globalRegister.record dealt (some (change entry)) := by
    rw [MemoryRegister.record_update, wellFormed.globalRegister.record_add adds,
      Function.update_self, Function.update_idem, Option.map_some]
  rw [update_toGlobal]
  refine ⟨⟨wellFormed.localRegister, ?_⟩, by rw [isDealt], dealer, record_of_global stored⟩
  exact (wellFormed.globalRegister.add adds).update dealt change

/-- A slot in use is removed from the register that it belongs to. -/
theorem WellFormed.removeReg (wellFormed : register.WellFormed)
    (found : register.record slot = some entry) (removed : register.removeReg slot = some after) :
    after.WellFormed ∧ after.record = Function.update register.record slot none ∧
      after.globalRegister.dealer = if isLocalSlot slot then register.globalRegister.dealer
        else register.globalRegister.dealer.recycle (fromGlobal slot) := by
  rw [record] at found
  rw [CombinedMemoryRegister.removeReg] at removed
  cases isLocal : isLocalSlot slot with
  | true =>
      rw [isLocal, if_pos rfl] at found removed
      rcases Option.map_eq_some_iff.mp removed with ⟨shrunk, removes, rfl⟩
      have live := (MemoryRegister.live_of_record found).1
      have changes := record_of_local (MemoryRegister.record_remove live removes)
      rw [toLocal_fromLocal isLocal] at changes
      exact ⟨⟨wellFormed.localRegister.remove live removes, wellFormed.globalRegister⟩, changes,
        rfl⟩
  | false =>
      rw [isLocal, if_neg Bool.false_ne_true] at found removed
      rcases Option.map_eq_some_iff.mp removed with ⟨shrunk, removes, rfl⟩
      have live := (MemoryRegister.live_of_record found).1
      have changes := record_of_global (MemoryRegister.record_remove live removes)
      rw [toGlobal_fromGlobal isLocal] at changes
      exact ⟨⟨wellFormed.localRegister, wellFormed.globalRegister.remove live removes⟩, changes,
        (MemoryRegister.remove_cases removes).1⟩

/-- No outcome of `reserve` changes a record. -/
theorem WellFormed.reserve (wellFormed : register.WellFormed)
    (globalFaults localFaults : ReserveFaults) (defaultRecord : Record) (size : ℕ) :
    (register.reserve globalFaults localFaults defaultRecord size).1.WellFormed ∧
      (register.reserve globalFaults localFaults defaultRecord size).1.record =
        register.record ∧
      (register.reserve globalFaults localFaults defaultRecord size).1.globalRegister.dealer =
        register.globalRegister.dealer := by
  have globals := wellFormed.globalRegister.reserve globalFaults defaultRecord size
  have locals := wellFormed.localRegister.reserve localFaults defaultRecord size
  have globalRecord := wellFormed.globalRegister.record_reserve globalFaults defaultRecord size
  have localRecord := wellFormed.localRegister.record_reserve localFaults defaultRecord size
  have dealer := MemoryRegister.dealer_reserve globalFaults defaultRecord register.globalRegister
    size
  rw [CombinedMemoryRegister.reserve]
  split
  next globalRegister thrown result =>
    rw [result] at globals globalRecord dealer
    refine ⟨⟨wellFormed.localRegister, globals⟩, ?_, dealer⟩
    funext slot
    simp only [record, globalRecord]
  next globalRegister result =>
    rw [result] at globals globalRecord dealer
    refine ⟨⟨locals, globals⟩, ?_, dealer⟩
    funext slot
    simp only [record, globalRecord, localRecord]

end CombinedMemoryRegister

end Talpf
