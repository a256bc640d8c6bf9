import Talpf.MemoryRegister.Runs
import Talpf.MemoryTable.Rooms
import Talpf.SparseSet.Shrink
import Mathlib.Data.Set.Card

/-!
# Registers stay large enough

Reserving slots may stop between any two registers, and a later attempt may ask
for fewer slots than an earlier one has reserved in part.  Still every register
has room for the capacity of the table, and all slots that were ever dealt lie
below the capacity, so that no register shrinks below it.
-/

namespace Talpf

open Spmd
open CombinedMemoryRegister (toGlobal toLocal)

/-- Dealing takes a new slot only if all slots below it are live. -/
theorem SlotDealer.minNewSlotNr_deal_le {dealer : SlotDealer} :
    dealer.deal.2.minNewSlotNr ≤ max dealer.minNewSlotNr (dealer.liveCount + 1) := by
  rcases dealer with ⟨_ | ⟨top, rest⟩, minNew⟩
  · exact Nat.le_max_right _ _
  · exact Nat.le_max_left _ _

theorem SlotDealer.minNewSlotNr_recycle_le (dealer : SlotDealer) (slot : ℕ) :
    (dealer.recycle slot).minNewSlotNr ≤ dealer.minNewSlotNr := by
  unfold SlotDealer.recycle
  split
  next last =>
    show slot ≤ _
    omega
  next => exact Nat.le_refl _

namespace MemoryRegister

variable {Record : Type} {register after : MemoryRegister Record} {record : Record}
  {slot capacity size : ℕ}

/-- A register has room for a capacity, and has dealt slots below it only. -/
structure Holds (register : MemoryRegister Record) (capacity : ℕ) : Prop where
  wellFormed : register.WellFormed
  dealt : register.dealer.minNewSlotNr < capacity
  enough : capacity ≤ register.capacity

namespace Holds

theorem add_isSome (holds : register.Holds capacity)
    (room : register.dealer.liveCount < capacity) (record : Record) :
    ∃ after, register.add record = some (register.dealer.deal.1, after) := by
  have fits := holds.wellFormed.deal_lt (Nat.lt_of_lt_of_le room holds.enough)
  exact ⟨_, add_eq register record fits⟩

theorem add (holds : register.Holds capacity)
    (room : register.dealer.liveCount + 1 < capacity)
    (added : register.add record = some (slot, after)) : after.Holds capacity := by
  have moved := (add_cases added).2.1
  refine ⟨holds.wellFormed.add added, ?_, ?_⟩
  · rw [moved]
    apply Nat.lt_of_le_of_lt SlotDealer.minNewSlotNr_deal_le
    exact max_lt holds.dealt room
  · rw [capacity_add added]
    exact holds.enough

theorem remove (holds : register.Holds capacity) (live : register.dealer.Live slot)
    (removed : register.remove slot = some after) : after.Holds capacity := by
  refine ⟨holds.wellFormed.remove live removed, ?_, ?_⟩
  · rw [(remove_cases removed).1]
    exact Nat.lt_of_le_of_lt (SlotDealer.minNewSlotNr_recycle_le _ _) holds.dealt
  · rw [capacity_remove removed]
    exact holds.enough

theorem update (holds : register.Holds capacity) (slot : ℕ) (change : Record → Record) :
    (register.update slot change).Holds capacity := by
  refine ⟨holds.wellFormed.update slot change, holds.dealt, ?_⟩
  rw [capacity_update]
  exact holds.enough

/-- Reserving more slots than the capacity gives a register of exactly the size that is asked for,
or throws and leaves its size as it is. -/
theorem capacity_reserve (holds : register.Holds capacity) (grows : capacity < size)
    (faults : ReserveFaults) (record : Record) :
    ((register.reserve faults record size).2 = none ∧
        (register.reserve faults record size).1.capacity = size) ∨
      ((∃ exn, (register.reserve faults record size).2 = some exn) ∧ register.capacity < size ∧
        (register.reserve faults record size).1.capacity = register.capacity) := by
  have dealt := holds.dealt
  have enough := holds.enough
  simp only [MemoryRegister.capacity, MemoryRegister.dealer] at dealt enough
  simp only [MemoryRegister.reserve, MemoryRegister.capacity]
  split_ifs with larger
  · exact Or.inr ⟨⟨_, rfl⟩, larger, rfl⟩
  · exact Or.inr ⟨⟨_, rfl⟩, larger, rfl⟩
  · exact Or.inr ⟨⟨_, rfl⟩, larger, rfl⟩
  · refine Or.inl ⟨rfl, ?_⟩
    simp only [List.length_append, List.length_replicate]
    omega
  · refine Or.inl ⟨rfl, ?_⟩
    simp only [List.length_take]
    omega
  · refine Or.inl ⟨rfl, ?_⟩
    simp only [List.length_take]
    omega

theorem reserve (holds : register.Holds capacity) (grows : capacity < size)
    (faults : ReserveFaults) (record : Record) :
    (register.reserve faults record size).1.Holds capacity := by
  refine ⟨holds.wellFormed.reserve faults record size, ?_, ?_⟩
  · rw [dealer_reserve]
    exact holds.dealt
  · rcases holds.capacity_reserve grows faults record with ⟨_, same⟩ | ⟨_, _, same⟩
    · rw [same]
      exact grows.le
    · rw [same]
      exact holds.enough

theorem of_capacity (holds : register.Holds capacity) (grows : capacity < size)
    (exact_ : register.capacity = size) : register.Holds size :=
  ⟨holds.wellFormed, holds.dealt.trans grows, exact_.ge⟩

end Holds

end MemoryRegister

namespace MemoryTable

variable {n : ℕ} {pid : Fin n} {table tableAfter : MemoryTable} {verbs verbsAfter : IBVerbs n}

/-- As many verbs slots are in use as slots that do not wait. -/
theorem Linked.liveCount {toId : ℕ → ℕ} {waits : ℕ → Prop} [DecidablePred waits]
    {register : MemoryRegister Memory} {slots : MemoryRegister (MemorySlot n)}
    (linked : Linked toId waits register slots) (injective : Function.Injective toId) :
    slots.dealer.liveCount = {slot ∈ register.dealer.live | ¬waits slot}.card := by
  have attached : {slot | register.dealer.Live slot ∧ ¬waits slot} =
      ↑{slot ∈ register.dealer.live | ¬waits slot} := by
    ext slot
    simp
  have ids : {id | slots.dealer.Live id} = ↑slots.dealer.live := by
    ext id
    simp
  have sameCount := linked.bijective.ncard_eq
  rw [attached, ids, Set.ncard_image_of_injective _ injective, Set.ncard_coe_finset,
    Set.ncard_coe_finset, linked.verbsWellFormed.dealer.card_live] at sameCount
  exact sameCount.symm

/-- All registers hold the capacity of the table, and so does the set of pending slots. -/
structure Roomy (table : MemoryTable) (verbs : IBVerbs n) : Prop where
  consistent : Consistent table verbs
  globals : table.memreg.globalRegister.Holds table.capacity
  locals : table.memreg.localRegister.Holds table.capacity
  verbsGlobals : verbs.memreg.globalRegister.Holds table.capacity
  verbsLocals : verbs.memreg.localRegister.Holds table.capacity
  range : 2 * table.capacity ≤ table.added.max
  settled : table.added.Settled (2 * table.capacity)
  within : table.added.max ≤ 2 * table.memreg.capacity + 1

/-- Each slot in use waits or has a slot of the verbs layer. -/
theorem Consistent.liveCount (consistent : Consistent table verbs) :
    verbs.memreg.localRegister.dealer.liveCount = table.memreg.localRegister.dealer.liveCount ∧
      verbs.memreg.globalRegister.dealer.liveCount + table.added.elements.length =
        table.memreg.globalRegister.dealer.liveCount := by
  have waiting := consistent.waiting
  constructor
  · rw [consistent.locals.liveCount toLocal_injective,
      ← consistent.locals.tableWellFormed.dealer.card_live]
    simp
  · have pending : {slot ∈ table.memreg.globalRegister.dealer.live |
        toGlobal slot ∈ table.added.elements}.card = table.added.elements.length := by
      rw [← List.toFinset_card_of_nodup waiting.nodup,
        ← Finset.card_image_of_injective _ toGlobal_injective]
      congr 1
      ext i
      simp only [Finset.mem_image, Finset.mem_filter, SlotDealer.mem_live, List.mem_toFinset]
      constructor
      · rintro ⟨slot, ⟨_, member⟩, rfl⟩
        exact member
      · intro member
        rcases waiting.inUse i member with ⟨slot, rfl, live⟩
        exact ⟨slot, ⟨live, member⟩, rfl⟩
    rw [waiting.linked.liveCount toGlobal_injective,
      ← waiting.linked.tableWellFormed.dealer.card_live, ← pending, Nat.add_comm]
    exact Finset.card_filter_add_card_filter_not _

section InUse

variable {Record : Type} {register : CombinedMemoryRegister Record} {slot : ℕ}

theorem lookup_isSome (globals : register.globalRegister.WellFormed)
    (locals : register.localRegister.WellFormed) (inUse : InUse register slot) :
    (register.lookup slot).isSome := by
  rcases slot_cases slot with ⟨number, rfl⟩ | ⟨number, rfl⟩
  · rw [inUse_toLocal] at inUse
    have bound := locals.live_lt inUse
    rw [CombinedMemoryRegister.lookup_toLocal, MemoryRegister.lookup,
      List.getElem?_eq_getElem bound]
    rfl
  · rw [inUse_toGlobal] at inUse
    have bound := globals.live_lt inUse
    rw [CombinedMemoryRegister.lookup_toGlobal, MemoryRegister.lookup,
      List.getElem?_eq_getElem bound]
    rfl

theorem lt_range (globals : register.globalRegister.WellFormed)
    (locals : register.localRegister.WellFormed) (inUse : InUse register slot) :
    slot < register.range := by
  rcases slot_cases slot with ⟨number, rfl⟩ | ⟨number, rfl⟩
  · rw [inUse_toLocal] at inUse
    have bound := locals.live_lt inUse
    simp only [CombinedMemoryRegister.range, toLocal]
    omega
  · rw [inUse_toGlobal] at inUse
    have bound := globals.live_lt inUse
    simp only [CombinedMemoryRegister.range, toGlobal]
    omega

theorem removeReg_isSome (globals : register.globalRegister.WellFormed)
    (locals : register.localRegister.WellFormed) (inUse : InUse register slot) :
    (register.removeReg slot).isSome := by
  rcases slot_cases slot with ⟨number, rfl⟩ | ⟨number, rfl⟩
  · rw [inUse_toLocal] at inUse
    rw [CombinedMemoryRegister.removeReg_toLocal, Option.isSome_map]
    exact locals.remove_isSome inUse
  · rw [inUse_toGlobal] at inUse
    rw [CombinedMemoryRegister.removeReg_toGlobal, Option.isSome_map]
    exact globals.remove_isSome inUse

/-- The slots of both kinds that were ever dealt lie below a common bound. -/
structure Dealt (register : CombinedMemoryRegister Record) (bound : ℕ) : Prop where
  globals : register.globalRegister.dealer.minNewSlotNr ≤ bound
  locals : register.localRegister.dealer.minNewSlotNr ≤ bound

theorem Dealt.slot_lt {bound : ℕ} (dealt : Dealt register bound) (inUse : InUse register slot) :
    slot < 2 * bound := by
  rcases slot_cases slot with ⟨number, rfl⟩ | ⟨number, rfl⟩
  · rw [inUse_toLocal] at inUse
    have below := Nat.lt_of_lt_of_le inUse.1 dealt.locals
    simp only [toLocal]
    omega
  · rw [inUse_toGlobal] at inUse
    have below := Nat.lt_of_lt_of_le inUse.1 dealt.globals
    simp only [toGlobal]
    omega

/-- Both registers get the size that is asked for, or one of them throws and is not smaller than
the two were before. -/
theorem reserve_holds {capacity size : ℕ} (globals : register.globalRegister.Holds capacity)
    (locals : register.localRegister.Holds capacity) (grows : capacity < size)
    (globalFaults localFaults : ReserveFaults) (record : Record) :
    (register.reserve globalFaults localFaults record size).1.globalRegister.Holds capacity ∧
      (register.reserve globalFaults localFaults record size).1.localRegister.Holds capacity ∧
      ((register.reserve globalFaults localFaults record size).2 = none →
        (register.reserve globalFaults localFaults record size).1.globalRegister.capacity = size ∧
        (register.reserve globalFaults localFaults record size).1.localRegister.capacity = size) ∧
      ((register.reserve globalFaults localFaults record size).2 ≠ none →
        register.capacity ≤
          (register.reserve globalFaults localFaults record size).1.capacity) := by
  have globalHolds := globals.reserve grows globalFaults record
  have localHolds := locals.reserve grows localFaults record
  have globalSize := globals.capacity_reserve grows globalFaults record
  have localSize := locals.capacity_reserve grows localFaults record
  simp only [CombinedMemoryRegister.reserve]
  generalize register.globalRegister.reserve globalFaults record size = globalOutcome
    at globalHolds globalSize
  generalize register.localRegister.reserve localFaults record size = localOutcome
    at localHolds localSize
  rcases globalOutcome with ⟨globalAfter, _ | exn⟩
  · rcases globalSize with ⟨_, globalSize⟩ | ⟨⟨_, impossible⟩, _⟩
    · refine ⟨globalHolds, localHolds, ?_, ?_⟩
      · intro fits
        rcases localSize with ⟨_, localSize⟩ | ⟨⟨_, throws⟩, _⟩
        · exact ⟨globalSize, localSize⟩
        · rw [fits] at throws
          cases throws
      · intro throws
        rcases localSize with ⟨fits, _⟩ | ⟨_, smaller, same⟩
        · exact absurd fits throws
        · simp only [CombinedMemoryRegister.capacity, globalSize, same]
          omega
    · cases impossible
  · rcases globalSize with ⟨impossible, _⟩ | ⟨_, smaller, same⟩
    · cases impossible
    · refine ⟨globalHolds, locals, ?_, ?_⟩
      · intro impossible
        cases impossible
      · intro _
        simp only [CombinedMemoryRegister.capacity, same]
        exact Nat.le_refl _

/-- Removing a slot leaves no larger slots behind. -/
theorem removeReg_holds {capacity : ℕ} (globals : register.globalRegister.Holds capacity)
    (locals : register.localRegister.Holds capacity) (inUse : InUse register slot)
    {after : CombinedMemoryRegister Record} (removes : register.removeReg slot = some after) :
    after.globalRegister.Holds capacity ∧ after.localRegister.Holds capacity ∧
      ∀ bound, Dealt register bound → Dealt after bound := by
  rcases slot_cases slot with ⟨number, rfl⟩ | ⟨number, rfl⟩
  · rw [inUse_toLocal] at inUse
    rw [CombinedMemoryRegister.removeReg_toLocal] at removes
    rcases Option.map_eq_some_iff.mp removes with ⟨localRegister, removed, rfl⟩
    refine ⟨globals, locals.remove inUse removed, fun bound dealt => ⟨dealt.globals, ?_⟩⟩
    simp only [(MemoryRegister.remove_cases removed).1]
    exact Nat.le_trans (SlotDealer.minNewSlotNr_recycle_le _ _) dealt.locals
  · rw [inUse_toGlobal] at inUse
    rw [CombinedMemoryRegister.removeReg_toGlobal] at removes
    rcases Option.map_eq_some_iff.mp removes with ⟨globalRegister, removed, rfl⟩
    refine ⟨globals.remove inUse removed, locals, fun bound dealt => ⟨?_, dealt.locals⟩⟩
    simp only [(MemoryRegister.remove_cases removed).1]
    exact Nat.le_trans (SlotDealer.minNewSlotNr_recycle_le _ _) dealt.globals

end InUse

namespace Roomy

theorem of_memreg (roomy : Roomy table verbs) (same : verbsAfter.memreg = verbs.memreg) :
    Roomy table verbsAfter := by
  have consistent := roomy.consistent
  refine ⟨⟨?_, ⟨consistent.waiting.nodup, consistent.waiting.inUse, ?_⟩, consistent.added,
    consistent.fromZero, consistent.bounded⟩, roomy.globals, roomy.locals, ?_, ?_, roomy.range,
    roomy.settled, roomy.within⟩ <;> rw [same]
  · exact consistent.locals
  · exact consistent.waiting.linked
  · exact roomy.verbsGlobals
  · exact roomy.verbsLocals

/-- The range of the pending slots fits the registers as long as the room stays as it is. -/
theorem within_of_rooms (roomy : Roomy table verbs)
    (same : rooms tableAfter verbsAfter = rooms table verbs) :
    tableAfter.added.max ≤ 2 * tableAfter.memreg.capacity + 1 := by
  have within := roomy.within
  simp only [rooms, Rooms.mk.injEq] at same
  rcases same with ⟨_, tableGlobal, tableLocal, _, addedMax, _, _⟩
  simp only [CombinedMemoryRegister.capacity] at within ⊢
  rw [tableGlobal, tableLocal, addedMax]
  exact within

theorem addLocal_isSome (roomy : Roomy table verbs)
    (room : table.memreg.localRegister.dealer.liveCount < table.capacity) (pid : Fin n)
    (mem size : ℕ) : (table.addLocal pid verbs mem size).isSome := by
  have verbsRoom := room
  rw [← roomy.consistent.liveCount.1] at verbsRoom
  cases registers : IBVerbs.regLocal pid verbs mem size with
  | none =>
      simp only [IBVerbs.regLocal] at registers
      split at registers
      next => cases registers
      next =>
        rw [Option.map_eq_none_iff, IBVerbs.memreg_openMr, CombinedMemoryRegister.addLocalReg,
          Option.map_eq_none_iff] at registers
        rcases roomy.verbsLocals.add_isSome verbsRoom ⟨(verbs.openMr size).1, fun _ => .null⟩ with
          ⟨_, adds⟩
        rw [adds] at registers
        cases registers
  | some registered =>
      rcases registered with ⟨registered, exn | id⟩
      · simp only [MemoryTable.addLocal, registers, Option.isSome_some]
      · rcases roomy.locals.add_isSome room ⟨mem, size, id⟩ with ⟨_, adds⟩
        simp only [MemoryTable.addLocal, registers, CombinedMemoryRegister.addLocalReg, adds,
          Option.map_some, Option.isSome_some]

theorem addLocal (roomy : Roomy table verbs)
    (room : table.memreg.localRegister.dealer.liveCount + 1 < table.capacity) {mem size : ℕ}
    {result : Except Exn ℕ}
    (adds : table.addLocal pid verbs mem size = some ((tableAfter, verbsAfter), result)) :
    Roomy tableAfter verbsAfter ∧ tableAfter.capacity = table.capacity ∧
      (∀ bound, Dealt table.memreg bound → table.memreg.localRegister.dealer.liveCount < bound →
        Dealt tableAfter.memreg bound) ∧
      ∀ slot, result = .ok slot → InUse tableAfter.memreg slot := by
  have consistent := roomy.consistent.addLocal adds
  have within := roomy.within_of_rooms (rooms_addLocal adds).1
  have verbsRoom := room
  rw [← roomy.consistent.liveCount.1] at verbsRoom
  simp only [MemoryTable.addLocal] at adds
  split at adds
  next => cases adds
  next registered exn registers =>
    simp only [Option.some.injEq, Prod.mk.injEq] at adds
    rcases adds with ⟨⟨rfl, rfl⟩, rfl⟩
    rcases regLocal_cases registers with ⟨_, same⟩ | ⟨_, _, _, _, isOk, _⟩
    · refine ⟨⟨consistent, roomy.globals, roomy.locals, ?_, ?_, roomy.range, roomy.settled, within⟩,
        rfl, fun bound dealt _ => dealt, fun _ impossible => by cases impossible⟩
      · rw [same]
        exact roomy.verbsGlobals
      · rw [same]
        exact roomy.verbsLocals
    · cases isOk
  next registered id registers =>
    rcases Option.map_eq_some_iff.mp adds with ⟨⟨slot, memreg⟩, stores, made⟩
    simp only [Prod.mk.injEq] at made
    rcases made with ⟨⟨rfl, rfl⟩, rfl⟩
    rcases Option.map_eq_some_iff.mp stores with ⟨⟨number, localRegister⟩, stored, same⟩
    simp only [Prod.mk.injEq] at same
    rcases same with ⟨rfl, rfl⟩
    rcases regLocal_cases registers with ⟨isError, _⟩ | ⟨entry, grown, change, added, _, moved⟩
    · cases isError
    · have dealt := MemoryRegister.add_cases stored
      refine ⟨⟨consistent, roomy.globals, roomy.locals.add room stored, ?_, ?_, roomy.range,
        roomy.settled, within⟩, rfl, fun bound below room => ⟨below.globals, ?_⟩, ?_⟩
      · rw [moved]
        exact roomy.verbsGlobals
      · rw [moved]
        exact (roomy.verbsLocals.add verbsRoom added).update _ _
      · simp only [dealt.2.1]
        apply Nat.le_trans SlotDealer.minNewSlotNr_deal_le
        exact Nat.max_le.mpr ⟨below.locals, room⟩
      · intro other isOk
        cases isOk
        rw [inUse_toLocal, dealt.2.1, roomy.locals.wellFormed.dealer.live_deal]
        exact Or.inr dealt.1

theorem addGlobal_isSome (roomy : Roomy table verbs)
    (room : table.memreg.globalRegister.dealer.liveCount + 1 < table.capacity)
    (mem size : ℕ) : (table.addGlobal mem size).isSome := by
  rcases roomy.globals.add_isSome (Nat.lt_of_succ_lt room) ⟨mem, size, Memory.invalidSlot⟩ with
    ⟨after, adds⟩
  have held := roomy.globals.add room adds
  have dealt := roomy.globals.wellFormed.dealer.live_deal
    table.memreg.globalRegister.dealer.deal.1
  have live := (dealt.mpr (Or.inr rfl)).1
  rw [← (MemoryRegister.add_cases adds).2.1] at live
  have bound := Nat.lt_trans live held.dealt
  have range := roomy.range
  simp only [MemoryTable.addGlobal, CombinedMemoryRegister.addGlobalReg, adds, Option.map_some]
  rw [if_pos]
  · rfl
  · rw [roomy.consistent.fromZero]
    simp only [toGlobal]
    omega

theorem addGlobal (roomy : Roomy table verbs)
    (room : table.memreg.globalRegister.dealer.liveCount + 1 < table.capacity) {mem size slot : ℕ}
    (adds : table.addGlobal mem size = some (tableAfter, slot)) :
    Roomy tableAfter verbs ∧ tableAfter.capacity = table.capacity ∧
      (∀ bound, Dealt table.memreg bound → table.memreg.globalRegister.dealer.liveCount < bound →
        Dealt tableAfter.memreg bound) ∧ InUse tableAfter.memreg slot := by
  have consistent := roomy.consistent.addGlobal adds
  have within := roomy.within_of_rooms (rooms_addGlobal verbs adds)
  simp only [MemoryTable.addGlobal] at adds
  split at adds
  next => cases adds
  next number memreg stores =>
    split at adds
    next range =>
      rw [Option.some.injEq, Prod.mk.injEq] at adds
      rcases adds with ⟨rfl, rfl⟩
      rcases Option.map_eq_some_iff.mp stores with ⟨⟨global, globalRegister⟩, stored, same⟩
      simp only [Prod.mk.injEq] at same
      rcases same with ⟨rfl, rfl⟩
      have held := roomy.globals.add room stored
      have dealt := MemoryRegister.add_cases stored
      have live : globalRegister.dealer.Live global := by
        rw [dealt.2.1, roomy.globals.wellFormed.dealer.live_deal]
        exact Or.inr dealt.1
      have bound := Nat.lt_trans live.1 held.dealt
      refine ⟨⟨consistent, held, roomy.locals, roomy.verbsGlobals, roomy.verbsLocals, ?_, ?_,
        within⟩, rfl, fun bound below room => ⟨?_, below.locals⟩, (inUse_toGlobal _ _).mpr live⟩
      · rw [(SparseSet.range_insert _ _).2]
        exact roomy.range
      · apply roomy.settled.insert roomy.consistent.added range.1 range.2
        rw [roomy.consistent.fromZero]
        simp only [toGlobal, MemoryTable.capacity] at bound ⊢
        omega
      · simp only [dealt.2.1]
        apply Nat.le_trans SlotDealer.minNewSlotNr_deal_le
        exact Nat.max_le.mpr ⟨below.globals, room⟩
    next => cases adds

theorem remove_isSome (roomy : Roomy table verbs) {slot : ℕ} (inUse : InUse table.memreg slot) :
    (table.remove verbs slot).isSome := by
  have consistent := roomy.consistent
  rcases Option.isSome_iff_exists.mp (removeReg_isSome roomy.globals.wellFormed
    roomy.locals.wellFormed inUse) with ⟨memreg, removes⟩
  by_cases pending : table.added.contains slot = true
  · rw [MemoryTable.remove, if_pos pending, removes]
    rfl
  · rcases Option.isSome_iff_exists.mp (lookup_isSome roomy.globals.wellFormed
      roomy.locals.wellFormed inUse) with ⟨memory, found⟩
    have attached := consistent.matched.mapsTo ⟨inUse, Bool.eq_false_iff.mpr pending⟩
    have itsId : table.verbSlot slot = memory.slot := by
      rw [verbSlot, found]
      rfl
    rw [itsId] at attached
    rcases Option.isSome_iff_exists.mp (removeReg_isSome roomy.verbsGlobals.wellFormed
      roomy.verbsLocals.wellFormed attached) with ⟨verbsMemreg, deregisters⟩
    rw [MemoryTable.remove, if_neg pending]
    simp only [found, IBVerbs.dereg, deregisters, removes, Option.map_some, Option.isSome_some]

theorem remove (roomy : Roomy table verbs) {slot : ℕ} (inUse : InUse table.memreg slot)
    (removes : table.remove verbs slot = some (tableAfter, verbsAfter)) :
    Roomy tableAfter verbsAfter ∧ tableAfter.capacity = table.capacity ∧
      ∀ bound, Dealt table.memreg bound → Dealt tableAfter.memreg bound := by
  have consistent := roomy.consistent.remove inUse removes
  have within := roomy.within_of_rooms (rooms_remove removes).1
  simp only [MemoryTable.remove] at removes
  split at removes
  next =>
    rcases Option.map_eq_some_iff.mp removes with ⟨memreg, removed, made⟩
    rw [Prod.mk.injEq] at made
    rcases made with ⟨rfl, rfl⟩
    rcases removeReg_holds roomy.globals roomy.locals inUse removed with ⟨globals, locals, dealt⟩
    refine ⟨⟨consistent, globals, locals, roomy.verbsGlobals, roomy.verbsLocals, ?_, ?_, within⟩,
      rfl, dealt⟩
    · rw [(SparseSet.range_erase _ _).2]
      exact roomy.range
    · exact roomy.settled.erase roomy.consistent.added
  next absent =>
    split at removes
    next => cases removes
    next memory found =>
      split at removes
      next => cases removes
      next deregistered deregisters =>
        rcases Option.map_eq_some_iff.mp removes with ⟨memreg, removed, made⟩
        rw [Prod.mk.injEq] at made
        rcases made with ⟨rfl, rfl⟩
        rcases Option.map_eq_some_iff.mp deregisters with ⟨verbsMemreg, dropped, rfl⟩
        have attached := roomy.consistent.matched.mapsTo ⟨inUse, Bool.eq_false_iff.mpr absent⟩
        have itsId : table.verbSlot slot = memory.slot := by
          rw [verbSlot, found]
          rfl
        rw [itsId] at attached
        rcases removeReg_holds roomy.globals roomy.locals inUse removed with
          ⟨globals, locals, dealt⟩
        rcases removeReg_holds roomy.verbsGlobals roomy.verbsLocals attached dropped with
          ⟨verbsGlobals, verbsLocals, _⟩
        exact ⟨⟨consistent, globals, locals, verbsGlobals, verbsLocals, roomy.range,
          roomy.settled, within⟩, rfl, dealt⟩

end Roomy

theorem regGlobal_safe (wellFormed : verbs.memreg.globalRegister.WellFormed)
    (room : verbs.memreg.globalRegister.dealer.liveCount <
      verbs.memreg.globalRegister.capacity) (addr size : ℕ) :
    (verbs.regGlobal addr size).Safe := by
  by_cases refuses : verbs.Refuses size
  · rw [IBVerbs.regGlobal_refused refuses addr]
    intro failed
    exact trivial
  · unfold IBVerbs.Refuses at refuses
    rcases IBVerbs.addGlobalReg_dealt rfl (wellFormed.deal_lt room)
      ⟨(verbs.openMr size).1, fun _ => .null⟩ with ⟨memreg, adds⟩
    simp only [IBVerbs.regGlobal, if_neg refuses, IBVerbs.memreg_openMr, adds]
    intro failed
    show Program.Safe (if failed = true then _ else _)
    split
    · exact trivial
    · intro areas
      exact trivial

theorem dealers_update {Record : Type} (register : CombinedMemoryRegister Record) (i : ℕ)
    (change : Record → Record) :
    (register.update i change).globalRegister.dealer = register.globalRegister.dealer ∧
      (register.update i change).localRegister.dealer = register.localRegister.dealer := by
  unfold CombinedMemoryRegister.update
  split
  · exact ⟨rfl, MemoryRegister.dealer_update _ _ _⟩
  · exact ⟨MemoryRegister.dealer_update _ _ _, rfl⟩

/-- A registration of the verbs layer deals at most one slot. -/
theorem regGlobal_dealt {addr size bound : ℕ} {answers : List (machine n).Answer}
    {result : Except Exn ℕ} (wellFormed : verbs.memreg.globalRegister.WellFormed)
    (dealt : verbs.memreg.globalRegister.dealer.minNewSlotNr < bound)
    (room : verbs.memreg.globalRegister.dealer.liveCount + 1 < bound)
    (follows : Follows (verbs.regGlobal addr size) answers (verbsAfter, result)) :
    verbsAfter.memreg.globalRegister.WellFormed ∧
      verbsAfter.memreg.globalRegister.dealer.minNewSlotNr < bound ∧
      verbsAfter.memreg.globalRegister.dealer.liveCount ≤
        verbs.memreg.globalRegister.dealer.liveCount + 1 ∧
      verbsAfter.memreg.globalRegister.capacity = verbs.memreg.globalRegister.capacity ∧
      verbsAfter.memreg.localRegister = verbs.memreg.localRegister := by
  rcases regGlobal_follows follows with ⟨_, _, _, _, same⟩ |
    ⟨_, grown, change, _, _, added, _, moved⟩
  · rw [same]
    exact ⟨wellFormed, dealt, Nat.le_succ _, rfl, rfl⟩
  · have dealer := (MemoryRegister.add_cases added).2.1
    rw [moved]
    refine ⟨(wellFormed.add added).update _ change, ?_, ?_, ?_, rfl⟩
    · rw [MemoryRegister.dealer_update, dealer]
      apply Nat.lt_of_le_of_lt SlotDealer.minNewSlotNr_deal_le
      exact Nat.max_lt.mpr ⟨dealt, room⟩
    · rw [MemoryRegister.dealer_update, dealer, wellFormed.dealer.liveCount_deal]
    · rw [MemoryRegister.capacity_update, MemoryRegister.capacity_add added]

/-- What the registration of pending slots does to the dealers. -/
structure Redealt (table : MemoryTable) (verbs : IBVerbs n) (bound : ℕ) (tableAfter : MemoryTable)
    (verbsAfter : IBVerbs n) : Prop where
  globals : tableAfter.memreg.globalRegister.dealer = table.memreg.globalRegister.dealer
  locals : tableAfter.memreg.localRegister.dealer = table.memreg.localRegister.dealer
  verbsGlobals : verbsAfter.memreg.globalRegister.dealer.minNewSlotNr < bound
  verbsLocals : verbsAfter.memreg.localRegister = verbs.memreg.localRegister
  added : tableAfter.added = table.added

theorem syncSlots_redealt {slots : List ℕ} {bound : ℕ} {answers : List (machine n).Answer}
    {thrown : Option Exn} (wellFormed : verbs.memreg.globalRegister.WellFormed)
    (dealt : verbs.memreg.globalRegister.dealer.minNewSlotNr < bound)
    (room : verbs.memreg.globalRegister.dealer.liveCount + slots.length < bound)
    (follows : Follows (syncSlots slots table verbs) answers ((tableAfter, verbsAfter), thrown)) :
    Redealt table verbs bound tableAfter verbsAfter := by
  induction slots generalizing table verbs answers with
  | nil =>
      rcases Follows.done_iff.mp follows with ⟨_, made⟩
      simp only [Prod.mk.injEq] at made
      rcases made with ⟨⟨rfl, rfl⟩, _⟩
      exact ⟨rfl, rfl, dealt, rfl, rfl⟩
  | cons i slots ih =>
      rw [List.length_cons] at room
      simp only [syncSlots] at follows
      split at follows
      next => exact absurd follows Follows.not_fault
      next =>
        split at follows
        next => exact absurd follows Follows.not_fault
        next memory found =>
          rcases Follows.bind_iff.mp follows with ⟨_, _, ⟨middle, result⟩, rfl, head, tail⟩
          rcases regGlobal_dealt wellFormed dealt (by omega) head with
            ⟨middleWellFormed, middleDealt, counted, _, sameLocals⟩
          cases result with
          | error exn =>
              rcases Follows.done_iff.mp tail with ⟨_, made⟩
              simp only [Prod.mk.injEq] at made
              rcases made with ⟨⟨rfl, rfl⟩, _⟩
              exact ⟨rfl, rfl, middleDealt, sameLocals, rfl⟩
          | ok s =>
              have rest := ih middleWellFormed middleDealt (by omega) tail
              have same := dealers_update table.memreg i fun memory => { memory with slot := s }
              exact ⟨rest.globals.trans same.1, rest.locals.trans same.2, rest.verbsGlobals,
                rest.verbsLocals.trans sameLocals, rest.added⟩

/-- The registration of slots in use does not fault if there is room for all of them. -/
theorem syncSlots_safe {slots : List ℕ} {bound : ℕ}
    (wellFormed : verbs.memreg.globalRegister.WellFormed)
    (dealt : verbs.memreg.globalRegister.dealer.minNewSlotNr < bound)
    (enough : bound ≤ verbs.memreg.globalRegister.capacity)
    (room : verbs.memreg.globalRegister.dealer.liveCount + slots.length < bound)
    (stored : ∀ i ∈ slots, ∃ slot, i = toGlobal slot ∧
      slot < table.memreg.globalRegister.slots.length) :
    (syncSlots slots table verbs).Safe := by
  induction slots generalizing table verbs with
  | nil => exact trivial
  | cons i slots ih =>
      rw [List.length_cons] at room
      rcases stored i List.mem_cons_self with ⟨slot, rfl, bound⟩
      rw [syncSlots_cons slots (List.getElem?_eq_getElem bound) verbs]
      apply Program.Safe.bind (regGlobal_safe wellFormed (by omega) _ _)
      rintro answers ⟨middle, result⟩ head
      rcases regGlobal_dealt wellFormed dealt (by omega) head with
        ⟨middleWellFormed, middleDealt, counted, sameCapacity, _⟩
      cases result with
      | error exn => exact trivial
      | ok s =>
          apply ih middleWellFormed middleDealt (by rw [sameCapacity]; exact enough) (by omega)
          intro other member
          rcases stored other (List.mem_cons_of_mem _ member) with ⟨number, rfl, inside⟩
          refine ⟨number, rfl, ?_⟩
          simpa [setSlot, MemoryRegister.update] using inside

namespace Roomy

/-- There is room for a verbs slot for each pending slot. -/
theorem pending_room (roomy : Roomy table verbs) :
    verbs.memreg.globalRegister.dealer.liveCount + table.added.elements.length <
      table.capacity := by
  rw [roomy.consistent.liveCount.2]
  exact Nat.lt_of_le_of_lt (Nat.sub_le _ _) roomy.globals.dealt

theorem sync_safe (roomy : Roomy table verbs) : (table.sync verbs).Safe := by
  unfold MemoryTable.sync
  split
  next => exact trivial
  next =>
    apply Program.Safe.bind
    · apply syncSlots_safe roomy.verbsGlobals.wellFormed roomy.verbsGlobals.dealt
        roomy.verbsGlobals.enough roomy.pending_room
      intro i member
      rcases roomy.consistent.waiting.inUse i member with ⟨slot, rfl, live⟩
      exact ⟨slot, rfl, roomy.globals.wellFormed.live_lt live⟩
    · rintro _ ⟨⟨middle, verbsMiddle⟩, _ | exn⟩ _
      · intro _
        exact trivial
      · exact trivial

/-- A sync leaves the dealers of the memory table alone, and deals as many verbs slots as there are
pending slots, at most. -/
theorem sync_redealt (roomy : Roomy table verbs) {answers : List (machine n).Answer}
    {thrown : Option Exn}
    (follows : Follows (table.sync verbs) answers ((tableAfter, verbsAfter), thrown)) :
    ∃ middle, Redealt table verbs table.capacity middle verbsAfter ∧
      tableAfter.memreg = middle.memreg ∧
      (tableAfter.added = table.added ∨ tableAfter.added = table.added.clear) := by
  unfold MemoryTable.sync at follows
  split at follows
  next =>
    rcases Follows.done_iff.mp follows with ⟨_, made⟩
    simp only [Prod.mk.injEq] at made
    rcases made with ⟨⟨rfl, rfl⟩, _⟩
    exact ⟨_, ⟨rfl, rfl, roomy.verbsGlobals.dealt, rfl, rfl⟩, rfl, Or.inl rfl⟩
  next =>
    rcases Follows.bind_iff.mp follows with ⟨_, _, ⟨⟨middle, verbsMiddle⟩, stopped⟩, _, head, tail⟩
    have redealt := syncSlots_redealt roomy.verbsGlobals.wellFormed roomy.verbsGlobals.dealt
      roomy.pending_room head
    cases stopped with
    | some exn =>
        rcases Follows.done_iff.mp tail with ⟨_, made⟩
        simp only [Prod.mk.injEq] at made
        rcases made with ⟨⟨rfl, rfl⟩, _⟩
        exact ⟨_, redealt, rfl, Or.inl redealt.added⟩
    | none =>
        rcases Follows.call_iff.mp tail with ⟨_, _, _, finished⟩
        rcases Follows.done_iff.mp finished with ⟨_, made⟩
        simp only [Prod.mk.injEq] at made
        rcases made with ⟨⟨rfl, rfl⟩, _⟩
        exact ⟨_, redealt, rfl, Or.inr (by rw [redealt.added])⟩

/-- A sync that throws at its first pending slot at the latest keeps the room. -/
theorem sync (roomy : Roomy table verbs) (pid : Fin n) {answers : List (machine n).Answer}
    {thrown : Option Exn}
    (follows : Follows (table.sync verbs) answers ((tableAfter, verbsAfter), thrown))
    (atOnce : ∀ answer ∈ answers.tail, reports answer = false) :
    Roomy tableAfter verbsAfter ∧ tableAfter.capacity = table.capacity ∧
      ∀ bound, Dealt table.memreg bound → Dealt tableAfter.memreg bound := by
  have taken : Holding.Step pid ⟨table, verbs⟩ (.sync answers) ⟨tableAfter, verbsAfter⟩ :=
    ⟨thrown, follows⟩
  have permitted : Holding.Permitted (⟨table, verbs⟩ : Holding n) (.sync answers) := trivial
  have consistent : Consistent tableAfter verbsAfter :=
    Holding.consistent_step roomy.consistent permitted atOnce taken
  have rooms := (rooms_sync follows).1
  have within := roomy.within_of_rooms rooms
  simp only [MemoryTable.rooms, Rooms.mk.injEq] at rooms
  rcases rooms with ⟨capacity, tableGlobal, tableLocal, _, addedMax, verbsGlobal, verbsLocal⟩
  rcases roomy.sync_redealt follows with ⟨middle, redealt, sameMemreg, added⟩
  have globals := redealt.globals
  have locals := redealt.locals
  rw [← sameMemreg] at globals locals
  refine ⟨⟨consistent, ?_, ?_, ?_, ?_, ?_, ?_, within⟩, capacity, fun bound dealt => ⟨?_, ?_⟩⟩
  · rw [capacity]
    refine ⟨consistent.waiting.linked.tableWellFormed, ?_, ?_⟩
    · rw [globals]
      exact roomy.globals.dealt
    · rw [tableGlobal]
      exact roomy.globals.enough
  · rw [capacity]
    refine ⟨consistent.locals.tableWellFormed, ?_, ?_⟩
    · rw [locals]
      exact roomy.locals.dealt
    · rw [tableLocal]
      exact roomy.locals.enough
  · rw [capacity]
    refine ⟨consistent.waiting.linked.verbsWellFormed, redealt.verbsGlobals, ?_⟩
    rw [verbsGlobal]
    exact roomy.verbsGlobals.enough
  · rw [capacity, redealt.verbsLocals]
    exact roomy.verbsLocals
  · rw [capacity, addedMax]
    exact roomy.range
  · rw [capacity]
    rcases added with same | cleared
    · rw [same]
      exact roomy.settled
    · rw [cleared]
      exact roomy.settled.clear
  · rw [globals]
    exact dealt.globals
  · rw [locals]
    exact dealt.locals

end Roomy

theorem dealers_reserve {Record : Type} (globalFaults localFaults : ReserveFaults)
    (record : Record) (register : CombinedMemoryRegister Record) (size : ℕ) :
    (register.reserve globalFaults localFaults record size).1.globalRegister.dealer =
        register.globalRegister.dealer ∧
      (register.reserve globalFaults localFaults record size).1.localRegister.dealer =
        register.localRegister.dealer := by
  rcases reserve_combined_cases globalFaults localFaults record register size with same | same
  · rw [same]
    exact ⟨MemoryRegister.dealer_reserve _ _ _ _, rfl⟩
  · rw [same]
    exact ⟨MemoryRegister.dealer_reserve _ _ _ _, MemoryRegister.dealer_reserve _ _ _ _⟩

theorem resizeMemreg_holds {capacity size : ℕ}
    (globals : verbs.memreg.globalRegister.Holds capacity)
    (locals : verbs.memreg.localRegister.Holds capacity) (grows : capacity < size)
    (globalFaults localFaults : ReserveFaults) :
    (verbs.resizeMemreg globalFaults localFaults size).1.memreg.globalRegister.Holds capacity ∧
      (verbs.resizeMemreg globalFaults localFaults size).1.memreg.localRegister.Holds capacity ∧
      ((verbs.resizeMemreg globalFaults localFaults size).2 = none →
        (verbs.resizeMemreg globalFaults localFaults size).1.memreg.globalRegister.capacity = size ∧
        (verbs.resizeMemreg globalFaults localFaults size).1.memreg.localRegister.capacity =
          size) := by
  have reserved := reserve_holds globals locals grows globalFaults localFaults (MemorySlot.null n)
  unfold IBVerbs.resizeMemreg
  split
  next =>
    refine ⟨globals, locals, ?_⟩
    intro impossible
    cases impossible
  next =>
    split
    next =>
      refine ⟨globals, locals, ?_⟩
      intro impossible
      cases impossible
    next => exact ⟨reserved.1, reserved.2.1, reserved.2.2.1⟩

namespace Roomy

/-- The registers of the table are reserved, and the range of the pending slots still fits. -/
theorem reserveSlots (roomy : Roomy table verbs) {size : ℕ} (grows : table.capacity < size)
    (globalFaults localFaults : ReserveFaults)
    (fits : table.added.max ≤
      2 * (table.memreg.reserve globalFaults localFaults .null size).1.capacity + 1) :
    Roomy { table with
      memreg := (table.memreg.reserve globalFaults localFaults .null size).1 } verbs := by
  rcases reserve_holds roomy.globals roomy.locals grows globalFaults localFaults Memory.null with
    ⟨globals, locals, _, _⟩
  refine ⟨?_, globals, locals, roomy.verbsGlobals, roomy.verbsLocals, roomy.range, roomy.settled,
    fits⟩
  apply roomy.consistent.reserveSlots globalFaults localFaults roomy.consistent.added rfl
    roomy.consistent.fromZero
  simp only [CombinedMemoryRegister.capacity, CombinedMemoryRegister.range] at fits ⊢
  omega

/-- The registers of the table are reserved, and the range of the pending slots follows. -/
theorem reserveAdded (roomy : Roomy table verbs) {size : ℕ} (grows : table.capacity < size)
    (globalFaults localFaults : ReserveFaults)
    (fits : (table.memreg.reserve globalFaults localFaults .null size).2 = none) :
    (table.memreg.reserve globalFaults localFaults .null size).1.range = 2 * size + 1 ∧
      (table.added.resize (2 * size + 1)).max = 2 * size + 1 ∧
      Roomy { table with
        memreg := (table.memreg.reserve globalFaults localFaults .null size).1
        added := table.added.resize (2 * size + 1) } verbs := by
  rcases reserve_holds roomy.globals roomy.locals grows globalFaults localFaults Memory.null with
    ⟨globals, locals, sizes, _⟩
  have range : (table.memreg.reserve globalFaults localFaults .null size).1.range =
      2 * size + 1 := by
    rw [CombinedMemoryRegister.range, (sizes fits).1, (sizes fits).2]
    omega
  rcases roomy.settled.resize roomy.consistent.added roomy.consistent.fromZero
    (show 2 * table.capacity ≤ 2 * size + 1 + 1 by omega) with
    ⟨wellFormed, sameElements, fromZero, newMax, settled⟩
  refine ⟨range, newMax, ?_, globals, locals, roomy.verbsGlobals, roomy.verbsLocals, ?_, settled,
    ?_⟩
  · exact roomy.consistent.reserveSlots globalFaults localFaults wellFormed sameElements fromZero
      (by rw [newMax, range])
  · rw [newMax]
    simp only [MemoryTable.capacity] at grows ⊢
    omega
  · rw [newMax, CombinedMemoryRegister.capacity, (sizes fits).1, (sizes fits).2, min_self]

theorem resizeVerbs (roomy : Roomy table verbs) {size : ℕ} (grows : table.capacity < size)
    (globalFaults localFaults : ReserveFaults) :
    Roomy table (verbs.resizeMemreg globalFaults localFaults size).1 := by
  rcases resizeMemreg_holds roomy.verbsGlobals roomy.verbsLocals grows globalFaults localFaults
    with ⟨globals, locals, _⟩
  exact ⟨roomy.consistent.resizeVerbs _ _ _, roomy.globals, roomy.locals, globals, locals,
    roomy.range, roomy.settled, roomy.within⟩

/-- Once all registers have a size, it becomes the capacity of the table. -/
theorem raise (roomy : Roomy table verbs) {size : ℕ} (grows : table.capacity < size)
    (globals : table.memreg.globalRegister.capacity = size)
    (locals : table.memreg.localRegister.capacity = size)
    (verbsGlobals : verbs.memreg.globalRegister.capacity = size)
    (verbsLocals : verbs.memreg.localRegister.capacity = size)
    (range : 2 * size ≤ table.added.max) :
    Roomy { table with tableCapacity := size } verbs := by
  have consistent := roomy.consistent
  refine ⟨⟨consistent.locals, ⟨consistent.waiting.nodup, consistent.waiting.inUse,
    consistent.waiting.linked⟩, consistent.added, consistent.fromZero, consistent.bounded⟩,
    roomy.globals.of_capacity grows globals, roomy.locals.of_capacity grows locals,
    roomy.verbsGlobals.of_capacity grows verbsGlobals,
    roomy.verbsLocals.of_capacity grows verbsLocals, range, ?_, roomy.within⟩
  apply roomy.settled.mono
  exact Nat.mul_le_mul_left 2 grows.le

/-- Reserving more slots than the capacity keeps the room whatever fails, and raises the capacity
if nothing does. -/
theorem reserve (roomy : Roomy table verbs) {size : ℕ} (grows : table.capacity < size)
    (faults : Faults) :
    Roomy (table.reserve faults verbs size).1.1 (table.reserve faults verbs size).1.2 ∧
      (∀ bound, Dealt table.memreg bound →
        Dealt (table.reserve faults verbs size).1.1.memreg bound) ∧
      ((table.reserve faults verbs size).2 ≠ none →
        (table.reserve faults verbs size).1.1.capacity = table.capacity) ∧
      ((table.reserve faults verbs size).2 = none →
        (table.reserve faults verbs size).1.1.capacity = size ∧
          (table.reserve faults verbs size).1.1.memreg.range = 2 * size + 1) := by
  rcases reserve_holds roomy.globals roomy.locals grows faults.tableGlobal faults.tableLocal
    Memory.null with ⟨_, _, sizes, kept⟩
  have dealers := dealers_reserve faults.tableGlobal faults.tableLocal Memory.null table.memreg size
  have dealt : ∀ bound, Dealt table.memreg bound → Dealt (table.memreg.reserve faults.tableGlobal
      faults.tableLocal .null size).1 bound := by
    intro bound dealt
    refine ⟨?_, ?_⟩
    · rw [dealers.1]
      exact dealt.globals
    · rw [dealers.2]
      exact dealt.locals
  have grownSlots := roomy.reserveSlots grows faults.tableGlobal faults.tableLocal
  have grownAdded := roomy.reserveAdded grows faults.tableGlobal faults.tableLocal
  have within := roomy.within
  unfold MemoryTable.reserve
  generalize table.memreg.reserve faults.tableGlobal faults.tableLocal .null size = outcome
    at sizes kept dealt grownSlots grownAdded
  rcases outcome with ⟨memreg, _ | exn⟩
  · rcases sizes rfl with ⟨globalSize, localSize⟩
    rcases grownAdded rfl with ⟨range, newMax, grown⟩
    simp only at range globalSize localSize
    simp only [range]
    split
    next refused =>
      refine ⟨grownSlots ?_, dealt, fun _ => rfl, fun impossible => by cases impossible⟩
      simp only [CombinedMemoryRegister.capacity, globalSize, localSize, min_self]
      exact refused.2.le
    next =>
      have resized := grown.resizeVerbs grows faults.verbsGlobal faults.verbsLocal
      have verbsSizes := (resizeMemreg_holds roomy.verbsGlobals roomy.verbsLocals grows
        faults.verbsGlobal faults.verbsLocal).2.2
      generalize verbs.resizeMemreg faults.verbsGlobal faults.verbsLocal size = verbsOutcome
        at resized verbsSizes
      rcases verbsOutcome with ⟨after, _ | exn⟩
      · refine ⟨?_, dealt, fun impossible => absurd rfl impossible, fun _ => ⟨rfl, range⟩⟩
        apply resized.raise grows globalSize localSize (verbsSizes rfl).1 (verbsSizes rfl).2
        rw [newMax]
        exact Nat.le_succ _
      · exact ⟨resized, dealt, fun _ => rfl, fun impossible => by cases impossible⟩
  · refine ⟨grownSlots ?_, dealt, fun _ => rfl, fun impossible => by cases impossible⟩
    have smaller := kept (by simp)
    simp only at smaller ⊢
    omega

/-- What the constructor reserves is enough for its capacity. -/
theorem initial {device : Device n}
    (constructs : (MemoryTable.initial.reserve .none (IBVerbs.initial device) 1).2 = none) :
    Roomy (MemoryTable.initial.reserve .none (IBVerbs.initial device) 1).1.1
        (MemoryTable.initial.reserve .none (IBVerbs.initial device) 1).1.2 ∧
      Dealt (MemoryTable.initial.reserve .none (IBVerbs.initial device) 1).1.1.memreg 0 := by
  have consistent := (consistent_initial device).reserve .none
    (show MemoryTable.initial.range ≤ 2 * 1 + 1 by decide)
  simp only [MemoryTable.reserve, Faults.none, Bool.false_eq_true, false_and, if_false,
    resizeMemreg_initial constructs] at consistent ⊢
  refine ⟨⟨consistent, ⟨consistent.waiting.linked.tableWellFormed, ?_, ?_⟩,
    ⟨consistent.locals.tableWellFormed, ?_, ?_⟩,
    ⟨consistent.waiting.linked.verbsWellFormed, ?_, ?_⟩,
    ⟨consistent.locals.verbsWellFormed, ?_, ?_⟩, ?_, ⟨?_, ?_⟩, ?_⟩, ⟨?_, ?_⟩⟩
  · exact Nat.one_pos
  · exact Nat.le_refl 1
  · exact Nat.one_pos
  · exact Nat.le_refl 1
  · exact Nat.one_pos
  · exact Nat.le_refl 1
  · exact Nat.one_pos
  · exact Nat.le_refl 1
  · show 2 * 1 ≤ 3
    decide
  · exact Nat.zero_le _
  · show ∀ i, 2 * 1 ≤ i → i < 4 → [0, 1, 2, 3].getD i 0 = i
    intro i above inside
    rcases (show i = 2 ∨ i = 3 by omega) with rfl | rfl
    · rfl
    · rfl
  · show 3 ≤ 2 * 1 + 1
    decide
  · exact Nat.le_refl 0
  · exact Nat.le_refl 0

end Roomy

end MemoryTable

end Talpf
