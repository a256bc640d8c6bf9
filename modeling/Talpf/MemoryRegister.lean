import Mathlib.Data.List.Nodup
import Mathlib.Data.List.Perm.Subperm

/-!
# Memory registers

A register stores records under slot numbers.  Free slot numbers are recycled
from a stack before fresh ones are dealt, and a slot at the very end is given
back to the fresh ones.  `SlotDealer` is that discipline alone: which slot
numbers are dealt depends on the calls to `add` and `remove`, and on nothing
else of the register, in particular not on its capacity.  `MemoryRegister` is
shown to deal as the dealer does and to keep the records of all other slots.
`CombinedMemoryRegister` pairs a register for local with one for global slots.
-/

namespace Talpf

/-- The exceptions that the modelled code throws. -/
inductive Exn where
  | badAlloc
  | lengthError
  /-- Any other exception, such as those of the verbs layer. -/
  | exception
deriving DecidableEq, Repr

/-- Which slot numbers are free. -/
structure SlotDealer where
  /-- Recycled slots, most recent first. -/
  free : List ℕ
  /-- The smallest slot number that has not been dealt out yet. -/
  minNewSlotNr : ℕ
deriving DecidableEq, Repr

namespace SlotDealer

def initial : SlotDealer := ⟨[], 0⟩

/-- The next slot to be dealt, and the dealer after that. -/
def deal (dealer : SlotDealer) : ℕ × SlotDealer :=
  match dealer.free with
  | [] => (dealer.minNewSlotNr, ⟨[], dealer.minNewSlotNr + 1⟩)
  | slot :: rest => (slot, ⟨rest, dealer.minNewSlotNr⟩)

/-- Give a slot back. -/
def recycle (dealer : SlotDealer) (slot : ℕ) : SlotDealer :=
  if slot + 1 = dealer.minNewSlotNr then ⟨dealer.free, slot⟩
  else ⟨slot :: dealer.free, dealer.minNewSlotNr⟩

/-- A slot that has been dealt and not given back. -/
def Live (dealer : SlotDealer) (slot : ℕ) : Prop :=
  slot < dealer.minNewSlotNr ∧ slot ∉ dealer.free

instance (dealer : SlotDealer) (slot : ℕ) : Decidable (dealer.Live slot) :=
  inferInstanceAs (Decidable (_ ∧ _))

/-- The stack holds distinct slots that were dealt before. -/
structure WellFormed (dealer : SlotDealer) : Prop where
  nodup : dealer.free.Nodup
  bounded : ∀ slot ∈ dealer.free, slot < dealer.minNewSlotNr

theorem wellFormed_initial : initial.WellFormed := ⟨List.nodup_nil, by simp [initial]⟩

@[simp]
theorem not_live_initial (slot : ℕ) : ¬initial.Live slot := by simp [initial, Live]

variable {dealer : SlotDealer}

theorem WellFormed.deal (wellFormed : dealer.WellFormed) : dealer.deal.2.WellFormed := by
  rcases dealer with ⟨_ | ⟨slot, rest⟩, minNew⟩
  · exact ⟨List.nodup_nil, by simp [SlotDealer.deal]⟩
  · exact ⟨(List.nodup_cons.mp wellFormed.nodup).2,
      fun other member => wellFormed.bounded other (List.mem_cons_of_mem _ member)⟩

/-- A dealt slot was free before and becomes live; no other slot changes. -/
theorem WellFormed.live_deal (wellFormed : dealer.WellFormed) (slot : ℕ) :
    dealer.deal.2.Live slot ↔ dealer.Live slot ∨ slot = dealer.deal.1 := by
  rcases dealer with ⟨_ | ⟨top, rest⟩, minNew⟩
  · simp only [SlotDealer.deal, Live, List.not_mem_nil, not_false_eq_true, and_true]
    omega
  · have distinct := (List.nodup_cons.mp wellFormed.nodup).1
    have bound := wellFormed.bounded top List.mem_cons_self
    simp only [SlotDealer.deal, Live, List.mem_cons, not_or]
    constructor
    · rintro ⟨lt, notRest⟩
      by_cases top_ : slot = top
      · exact Or.inr top_
      · exact Or.inl ⟨lt, top_, notRest⟩
    · rintro (⟨lt, _, notRest⟩ | rfl)
      · exact ⟨lt, notRest⟩
      · exact ⟨bound, distinct⟩

theorem not_live_deal (dealer : SlotDealer) : ¬dealer.Live dealer.deal.1 := by
  rcases dealer with ⟨_ | ⟨top, rest⟩, minNew⟩ <;> simp [SlotDealer.deal, Live]

theorem WellFormed.recycle (wellFormed : dealer.WellFormed) {slot : ℕ}
    (live : dealer.Live slot) : (dealer.recycle slot).WellFormed := by
  unfold SlotDealer.recycle
  split
  next last =>
    refine ⟨wellFormed.nodup, fun other member => ?_⟩
    have := wellFormed.bounded other member
    have : other ≠ slot := fun same => live.2 (same ▸ member)
    show other < slot
    omega
  next =>
    refine ⟨List.nodup_cons.mpr ⟨live.2, wellFormed.nodup⟩, fun other member => ?_⟩
    rcases List.mem_cons.mp member with rfl | member
    · exact live.1
    · exact wellFormed.bounded other member

/-- A recycled slot is no longer live; no other slot changes. -/
theorem live_recycle (dealer : SlotDealer) {slot : ℕ} (live : dealer.Live slot) (other : ℕ) :
    (dealer.recycle slot).Live other ↔ dealer.Live other ∧ other ≠ slot := by
  have lt := live.1
  unfold SlotDealer.recycle
  split
  next last =>
    simp only [Live]
    constructor
    · rintro ⟨bound, notFree⟩
      exact ⟨⟨by omega, notFree⟩, by omega⟩
    · rintro ⟨⟨bound, notFree⟩, distinct⟩
      exact ⟨by omega, notFree⟩
  next =>
    simp only [Live, List.mem_cons, not_or]
    tauto

/-- The number of live slots. -/
def liveCount (dealer : SlotDealer) : ℕ := dealer.minNewSlotNr - dealer.free.length

theorem WellFormed.length_free_le (wellFormed : dealer.WellFormed) :
    dealer.free.length ≤ dealer.minNewSlotNr := by
  have subset : dealer.free ⊆ List.range dealer.minNewSlotNr := fun slot member =>
    List.mem_range.mpr (wellFormed.bounded slot member)
  simpa using (wellFormed.nodup.subperm subset).length_le

/-- A live slot leaves room on the stack of free slots. -/
theorem WellFormed.length_free_lt (wellFormed : dealer.WellFormed) {slot : ℕ}
    (live : dealer.Live slot) : dealer.free.length < dealer.minNewSlotNr := by
  have subset : slot :: dealer.free ⊆ List.range dealer.minNewSlotNr := by
    intro other member
    rcases List.mem_cons.mp member with rfl | member
    · exact List.mem_range.mpr live.1
    · exact List.mem_range.mpr (wellFormed.bounded other member)
  have := ((List.nodup_cons.mpr ⟨live.2, wellFormed.nodup⟩).subperm subset).length_le
  simp only [List.length_cons, List.length_range] at this
  omega

theorem WellFormed.liveCount_deal (wellFormed : dealer.WellFormed) :
    dealer.deal.2.liveCount = dealer.liveCount + 1 := by
  have := wellFormed.length_free_le
  rcases dealer with ⟨_ | ⟨top, rest⟩, minNew⟩
  · simp [SlotDealer.deal, liveCount]
  · simp only [List.length_cons] at this
    simp only [SlotDealer.deal, liveCount, List.length_cons]
    omega

theorem WellFormed.liveCount_recycle (wellFormed : dealer.WellFormed) {slot : ℕ}
    (live : dealer.Live slot) : (dealer.recycle slot).liveCount + 1 = dealer.liveCount := by
  have := wellFormed.length_free_lt live
  unfold SlotDealer.recycle liveCount
  split
  next => simp only; omega
  next => simp only [List.length_cons]; omega

end SlotDealer

/-- Which allocations of a `reserve` throw `std::bad_alloc`. -/
structure ReserveFaults where
  /-- The new size exceeds what the vectors can ever hold. -/
  maxSize : Bool
  freeReserve : Bool
  slotsResize : Bool
  freeCopy : Bool
deriving DecidableEq, Repr

namespace ReserveFaults

def none : ReserveFaults := ⟨false, false, false, false⟩

end ReserveFaults

/-- Stores records and associates them with a slot number. -/
structure MemoryRegister (Record : Type) where
  slots : List Record
  /-- A stack of slots that can be recycled; its back comes first. -/
  free : List ℕ
  /-- The number of slots for which `free` has memory. -/
  freeCapacity : ℕ
  /-- The smallest slot number that has not been dealt out yet. -/
  minNewSlotNr : ℕ
deriving Repr

namespace MemoryRegister

variable {Record : Type}

def empty : MemoryRegister Record := ⟨[], [], 0, 0⟩

/-- Register a memory area.  `none` is a failed assertion: there is no slot left. -/
def add (register : MemoryRegister Record) (record : Record) :
    Option (ℕ × MemoryRegister Record) :=
  match register.free with
  | [] =>
      let slot := register.minNewSlotNr
      if slot < register.slots.length then
        some (slot, { register with
          slots := register.slots.set slot record
          minNewSlotNr := register.minNewSlotNr + 1 })
      else none
  | slot :: rest =>
      if slot < register.slots.length then
        some (slot, { register with slots := register.slots.set slot record, free := rest })
      else none

/-- Remove a registration.  `none` is a failed assertion. -/
def remove (register : MemoryRegister Record) (slot : ℕ) : Option (MemoryRegister Record) :=
  if slot < register.slots.length ∧ register.free.length < register.freeCapacity then
    if slot + 1 = register.minNewSlotNr then
      some { register with minNewSlotNr := register.minNewSlotNr - 1 }
    else some { register with free := slot :: register.free }
  else none

/-- The record of a slot. -/
def lookup (register : MemoryRegister Record) (slot : ℕ) : Option Record := register.slots[slot]?

/-- Change the record of a slot in place. -/
def update (register : MemoryRegister Record) (slot : ℕ) (change : Record → Record) :
    MemoryRegister Record :=
  { register with slots := register.slots.modify slot change }

def capacity (register : MemoryRegister Record) : ℕ := register.slots.length

/-- Ensure that `newSize` memory areas can be registered, or shrink to that size as far as
the slots in use allow. -/
def reserve (faults : ReserveFaults) (defaultRecord : Record)
    (register : MemoryRegister Record) (newSize : ℕ) : MemoryRegister Record × Option Exn :=
  let oldSize := register.slots.length
  if oldSize < newSize then
    if faults.maxSize then (register, some .badAlloc)
    else if faults.freeReserve then (register, some .badAlloc)
    else
      let reserved := { register with freeCapacity := max register.freeCapacity newSize }
      if faults.slotsResize then (reserved, some .badAlloc)
      else
        ({ reserved with
          slots := register.slots ++ List.replicate (newSize - oldSize) defaultRecord }, none)
  else
    let newSize := max newSize register.minNewSlotNr
    let shrunk := { register with slots := register.slots.take newSize }
    -- failing to copy the vectors into smaller memory is ignored
    if faults.freeCopy then (shrunk, none)
    else ({ shrunk with freeCapacity := max register.free.length newSize }, none)

/-- The slots that the register deals. -/
def dealer (register : MemoryRegister Record) : SlotDealer :=
  ⟨register.free, register.minNewSlotNr⟩

/-- All slots that were ever dealt are backed by records and fit on the stack. -/
structure WellFormed (register : MemoryRegister Record) : Prop where
  dealer : register.dealer.WellFormed
  minNewSlotNrLe : register.minNewSlotNr ≤ register.slots.length
  slotsLe : register.slots.length ≤ register.freeCapacity

theorem wellFormed_empty : (empty : MemoryRegister Record).WellFormed :=
  ⟨SlotDealer.wellFormed_initial, Nat.le_refl _, Nat.le_refl _⟩

variable {register after : MemoryRegister Record} {record : Record} {slot : ℕ}

theorem WellFormed.deal_lt (wellFormed : register.WellFormed)
    (room : register.dealer.liveCount < register.capacity) :
    register.dealer.deal.1 < register.slots.length := by
  have bounds := wellFormed.minNewSlotNrLe
  have bounded := wellFormed.dealer.bounded
  rcases register with ⟨slots, _ | ⟨top, rest⟩, freeCapacity, minNew⟩
  · exact room
  · have := bounded top List.mem_cons_self
    simp only [MemoryRegister.dealer, SlotDealer.deal] at this bounds ⊢
    omega

/-- `add` deals what the dealer deals and stores the record there. -/
theorem add_eq (register : MemoryRegister Record) (record : Record)
    (room : register.dealer.deal.1 < register.slots.length) :
    register.add record = some (register.dealer.deal.1,
      { register with
        slots := register.slots.set register.dealer.deal.1 record
        free := register.dealer.deal.2.free
        minNewSlotNr := register.dealer.deal.2.minNewSlotNr }) := by
  rcases register with ⟨slots, _ | ⟨top, rest⟩, freeCapacity, minNew⟩
  · simpa [add, MemoryRegister.dealer, SlotDealer.deal] using room
  · simpa [add, MemoryRegister.dealer, SlotDealer.deal] using room

theorem add_room (added : register.add record = some (slot, after)) :
    register.dealer.deal.1 < register.slots.length := by
  rcases register with ⟨slots, _ | ⟨top, rest⟩, freeCapacity, minNew⟩ <;>
    simp only [add] at added <;> split at added <;>
    simp_all [MemoryRegister.dealer, SlotDealer.deal]

/-- Everything that `add` does. -/
theorem add_cases (added : register.add record = some (slot, after)) :
    slot = register.dealer.deal.1 ∧ after.dealer = register.dealer.deal.2 ∧
      slot < register.slots.length ∧ after.slots = register.slots.set slot record ∧
      after.freeCapacity = register.freeCapacity := by
  have room := add_room added
  rw [add_eq register record room] at added
  simp only [Option.some.injEq, Prod.mk.injEq] at added
  rcases added with ⟨rfl, rfl⟩
  exact ⟨rfl, rfl, room, rfl, rfl⟩

theorem WellFormed.add (wellFormed : register.WellFormed)
    (added : register.add record = some (slot, after)) : after.WellFormed := by
  rcases add_cases added with ⟨rfl, dealt, room, stored, capacity⟩
  have lengths : after.slots.length = register.slots.length := by rw [stored, List.length_set]
  refine ⟨dealt ▸ wellFormed.dealer.deal, ?_, by
    rw [lengths, capacity]; exact wellFormed.slotsLe⟩
  have minNew : after.minNewSlotNr = register.dealer.deal.2.minNewSlotNr :=
    congrArg SlotDealer.minNewSlotNr dealt
  have := wellFormed.minNewSlotNrLe
  rw [lengths, minNew]
  rcases register with ⟨slots, _ | ⟨top, rest⟩, freeCapacity, minNew⟩ <;>
    simp only [MemoryRegister.dealer, SlotDealer.deal] at room ⊢ <;> omega

/-- Everything that `remove` does. -/
theorem remove_cases (removed : register.remove slot = some after) :
    after.dealer = register.dealer.recycle slot ∧ after.slots = register.slots ∧
      after.freeCapacity = register.freeCapacity := by
  unfold MemoryRegister.remove at removed
  split at removed
  next =>
    unfold SlotDealer.recycle
    split at removed
    next last =>
      rw [Option.some.injEq] at removed
      subst removed
      have : register.minNewSlotNr - 1 = slot := by omega
      simp [MemoryRegister.dealer, last, this]
    next notLast =>
      rw [Option.some.injEq] at removed
      subst removed
      simp [MemoryRegister.dealer, notLast]
  next => cases removed

theorem WellFormed.remove (wellFormed : register.WellFormed) (live : register.dealer.Live slot)
    (removed : register.remove slot = some after) : after.WellFormed := by
  rcases remove_cases removed with ⟨recycled, sameSlots, sameCapacity⟩
  refine ⟨recycled ▸ wellFormed.dealer.recycle live, ?_, by
    rw [sameSlots, sameCapacity]; exact wellFormed.slotsLe⟩
  have minNew : after.minNewSlotNr = (register.dealer.recycle slot).minNewSlotNr :=
    congrArg SlotDealer.minNewSlotNr recycled
  have := wellFormed.minNewSlotNrLe
  rw [sameSlots, minNew]
  unfold SlotDealer.recycle
  split
  next last => simp only [MemoryRegister.dealer] at last ⊢; omega
  next => exact this

/-- Live slots are backed by records. -/
theorem WellFormed.live_lt (wellFormed : register.WellFormed)
    (live : register.dealer.Live slot) : slot < register.capacity :=
  Nat.lt_of_lt_of_le live.1 wellFormed.minNewSlotNrLe

/-- A live slot can be removed. -/
theorem WellFormed.remove_isSome (wellFormed : register.WellFormed)
    (live : register.dealer.Live slot) : (register.remove slot).isSome := by
  have lt : slot < register.slots.length := wellFormed.live_lt live
  have room : register.free.length < register.freeCapacity := by
    have := wellFormed.dealer.length_free_lt live
    have := wellFormed.minNewSlotNrLe
    have := wellFormed.slotsLe
    simp only [MemoryRegister.dealer] at *
    omega
  unfold MemoryRegister.remove
  rw [if_pos ⟨lt, room⟩]
  split <;> rfl

@[simp]
theorem dealer_update (register : MemoryRegister Record) (slot : ℕ) (change : Record → Record) :
    (register.update slot change).dealer = register.dealer := rfl

theorem WellFormed.update (wellFormed : register.WellFormed) (slot : ℕ)
    (change : Record → Record) : (register.update slot change).WellFormed :=
  ⟨wellFormed.dealer, by simpa [MemoryRegister.update] using wellFormed.minNewSlotNrLe,
    by simpa [MemoryRegister.update] using wellFormed.slotsLe⟩

theorem lookup_update (register : MemoryRegister Record) (slot other : ℕ)
    (change : Record → Record) :
    (register.update slot change).lookup other =
      if slot = other then (register.lookup other).map change else register.lookup other := by
  simp only [lookup, MemoryRegister.update, List.getElem?_modify]
  split <;> simp_all

theorem lookup_add (added : register.add record = some (slot, after)) (other : ℕ) :
    after.lookup other = if slot = other then some record else register.lookup other := by
  rcases add_cases added with ⟨_, _, room, stored, _⟩
  simp only [lookup, stored, List.getElem?_set]
  split <;> simp_all

/-- No outcome of `reserve` changes which slots are dealt. -/
theorem dealer_reserve (faults : ReserveFaults) (defaultRecord : Record)
    (register : MemoryRegister Record) (newSize : ℕ) :
    (register.reserve faults defaultRecord newSize).1.dealer = register.dealer := by
  simp only [reserve]
  split_ifs <;> rfl

theorem WellFormed.reserve (wellFormed : register.WellFormed) (faults : ReserveFaults)
    (defaultRecord : Record) (newSize : ℕ) :
    (register.reserve faults defaultRecord newSize).1.WellFormed := by
  refine ⟨by rw [dealer_reserve]; exact wellFormed.dealer, ?_, ?_⟩
  all_goals
    have := wellFormed.minNewSlotNrLe
    have := wellFormed.slotsLe
    simp only [MemoryRegister.reserve]
    split_ifs <;>
      simp only [List.length_append, List.length_replicate, List.length_take] <;> omega

/-- The records of slots that were dealt survive every outcome of `reserve`. -/
theorem WellFormed.lookup_reserve (wellFormed : register.WellFormed) (faults : ReserveFaults)
    (defaultRecord : Record) (newSize : ℕ) (dealt : slot < register.minNewSlotNr) :
    (register.reserve faults defaultRecord newSize).1.lookup slot = register.lookup slot := by
  have bound := wellFormed.minNewSlotNrLe
  have kept : slot < max newSize register.minNewSlotNr := by omega
  simp only [MemoryRegister.reserve, lookup]
  split_ifs
  · rfl
  · rfl
  · rfl
  · exact List.getElem?_append_left (by omega)
  · exact List.getElem?_take_of_lt kept
  · exact List.getElem?_take_of_lt kept

@[simp]
theorem capacity_update (register : MemoryRegister Record) (slot : ℕ)
    (change : Record → Record) : (register.update slot change).capacity = register.capacity := by
  simp [MemoryRegister.update, capacity]

theorem capacity_add (added : register.add record = some (slot, after)) :
    after.capacity = register.capacity := by
  rcases add_cases added with ⟨_, _, _, stored, _⟩
  simp [capacity, stored]

theorem capacity_of_slots (sameSlots : after.slots = register.slots) :
    after.capacity = register.capacity := by
  rw [capacity, sameSlots, capacity]

theorem capacity_remove (removed : register.remove slot = some after) :
    after.capacity = register.capacity :=
  capacity_of_slots (remove_cases removed).2.1

/-- Without faults a register grows to the size that is asked for. -/
theorem reserve_grows (defaultRecord : Record) (register : MemoryRegister Record) {newSize : ℕ}
    (grows : register.capacity < newSize) :
    (register.reserve .none defaultRecord newSize).2 = none ∧
      (register.reserve .none defaultRecord newSize).1.capacity = newSize := by
  simp only [capacity] at grows
  simp only [MemoryRegister.reserve, ReserveFaults.none, if_pos grows, Bool.false_eq_true,
    if_false, capacity, List.length_append, List.length_replicate, true_and]
  omega

/-- The slots in use fit into the register. -/
theorem WellFormed.liveCount_le (wellFormed : register.WellFormed) :
    register.dealer.liveCount ≤ register.capacity := by
  have := wellFormed.minNewSlotNrLe
  simp only [SlotDealer.liveCount, MemoryRegister.dealer, capacity]
  omega

end MemoryRegister

/-- A register for local slots and one for global slots, with odd and even slot numbers. -/
structure CombinedMemoryRegister (Record : Type) where
  localRegister : MemoryRegister Record
  globalRegister : MemoryRegister Record
deriving Repr

namespace CombinedMemoryRegister

variable {Record : Type}

def isLocalSlot (slot : ℕ) : Bool := slot % 2 == 1

def fromGlobal (slot : ℕ) : ℕ := slot / 2

def fromLocal (slot : ℕ) : ℕ := (slot - 1) / 2

def toGlobal (slot : ℕ) : ℕ := 2 * slot

def toLocal (slot : ℕ) : ℕ := 2 * slot + 1

def empty : CombinedMemoryRegister Record := ⟨.empty, .empty⟩

def addLocalReg (register : CombinedMemoryRegister Record) (record : Record) :
    Option (ℕ × CombinedMemoryRegister Record) :=
  (register.localRegister.add record).map fun (slot, localRegister) =>
    (toLocal slot, { register with localRegister := localRegister })

def addGlobalReg (register : CombinedMemoryRegister Record) (record : Record) :
    Option (ℕ × CombinedMemoryRegister Record) :=
  (register.globalRegister.add record).map fun (slot, globalRegister) =>
    (toGlobal slot, { register with globalRegister := globalRegister })

def removeReg (register : CombinedMemoryRegister Record) (slot : ℕ) :
    Option (CombinedMemoryRegister Record) :=
  if isLocalSlot slot then
    (register.localRegister.remove (fromLocal slot)).map fun localRegister =>
      { register with localRegister := localRegister }
  else
    (register.globalRegister.remove (fromGlobal slot)).map fun globalRegister =>
      { register with globalRegister := globalRegister }

def lookup (register : CombinedMemoryRegister Record) (slot : ℕ) : Option Record :=
  if isLocalSlot slot then register.localRegister.lookup (fromLocal slot)
  else register.globalRegister.lookup (fromGlobal slot)

def update (register : CombinedMemoryRegister Record) (slot : ℕ) (change : Record → Record) :
    CombinedMemoryRegister Record :=
  if isLocalSlot slot then
    { register with localRegister := register.localRegister.update (fromLocal slot) change }
  else
    { register with globalRegister := register.globalRegister.update (fromGlobal slot) change }

/-- Reserve both registers; the global one comes first. -/
def reserve (globalFaults localFaults : ReserveFaults) (defaultRecord : Record)
    (register : CombinedMemoryRegister Record) (size : ℕ) :
    CombinedMemoryRegister Record × Option Exn :=
  match register.globalRegister.reserve globalFaults defaultRecord size with
  | (globalRegister, some thrown) => ({ register with globalRegister := globalRegister }, thrown)
  | (globalRegister, none) =>
      match register.localRegister.reserve localFaults defaultRecord size with
      | (localRegister, thrown) => (⟨localRegister, globalRegister⟩, thrown)

def capacity (register : CombinedMemoryRegister Record) : ℕ :=
  min register.globalRegister.capacity register.localRegister.capacity

def range (register : CombinedMemoryRegister Record) : ℕ :=
  max (2 * register.globalRegister.capacity) (2 * register.localRegister.capacity + 1)

/-- Without faults both registers grow to the size that is asked for. -/
theorem reserve_grows (defaultRecord : Record) (register : CombinedMemoryRegister Record)
    {size : ℕ} (globalGrows : register.globalRegister.capacity < size)
    (localGrows : register.localRegister.capacity < size) :
    register.reserve .none .none defaultRecord size =
      (⟨(register.localRegister.reserve .none defaultRecord size).1,
        (register.globalRegister.reserve .none defaultRecord size).1⟩, none) := by
  have globalFits := (register.globalRegister.reserve_grows defaultRecord globalGrows).1
  have localFits := (register.localRegister.reserve_grows defaultRecord localGrows).1
  unfold reserve
  split
  next thrown same => simp [same] at globalFits
  next _ grown same =>
    simp only [same]
    rw [← localFits]

/-- Each slot number names a slot of one of the two registers. -/
@[simp]
theorem isLocalSlot_toGlobal (slot : ℕ) : isLocalSlot (toGlobal slot) = false := by
  simp [isLocalSlot, toGlobal]

@[simp]
theorem isLocalSlot_toLocal (slot : ℕ) : isLocalSlot (toLocal slot) = true := by
  simp [isLocalSlot, toLocal]

@[simp]
theorem fromGlobal_toGlobal (slot : ℕ) : fromGlobal (toGlobal slot) = slot := by
  simp [fromGlobal, toGlobal]

@[simp]
theorem fromLocal_toLocal (slot : ℕ) : fromLocal (toLocal slot) = slot := by
  simp [fromLocal, toLocal]

variable (register : CombinedMemoryRegister Record) (slot : ℕ)

@[simp]
theorem lookup_toGlobal :
    register.lookup (toGlobal slot) = register.globalRegister.lookup slot := by
  simp [lookup]

@[simp]
theorem lookup_toLocal : register.lookup (toLocal slot) = register.localRegister.lookup slot := by
  simp [lookup]

@[simp]
theorem update_toGlobal (change : Record → Record) : register.update (toGlobal slot) change =
    { register with globalRegister := register.globalRegister.update slot change } := by
  simp [update]

@[simp]
theorem update_toLocal (change : Record → Record) : register.update (toLocal slot) change =
    { register with localRegister := register.localRegister.update slot change } := by
  simp [update]

@[simp]
theorem removeReg_toGlobal : register.removeReg (toGlobal slot) =
    (register.globalRegister.remove slot).map fun globalRegister =>
      { register with globalRegister := globalRegister } := by
  simp [removeReg]

@[simp]
theorem removeReg_toLocal : register.removeReg (toLocal slot) =
    (register.localRegister.remove slot).map fun localRegister =>
      { register with localRegister := localRegister } := by
  simp [removeReg]

end CombinedMemoryRegister

end Talpf
