import Talpf.MemoryTable.RetriedSyncs

/-!
# Room for slots

The numbers of slots for which the memory table, its set of pending slots and
the verbs layer have room change only when memory is reserved.  A register that
is too small either grows to the size that is asked for or stays as it is.
-/

namespace Talpf

open Spmd
open CombinedMemoryRegister (toGlobal toLocal)

/-- Memory for a larger register is refused. -/
def ReserveFaults.Refuses (faults : ReserveFaults) : Prop :=
  faults.maxSize = true ∨ faults.freeReserve = true ∨ faults.slotsResize = true

namespace MemoryRegister

variable {Record : Type}

theorem reserve_refused {faults : ReserveFaults} (refuses : faults.Refuses) (record : Record)
    {register : MemoryRegister Record} {size : ℕ} (grows : register.capacity < size) :
    (register.reserve faults record size).2 = some .badAlloc ∧
      (register.reserve faults record size).1.capacity = register.capacity := by
  simp only [capacity] at grows
  simp only [MemoryRegister.reserve, if_pos grows]
  rcases refuses with refused | refused | refused
  · rw [if_pos refused]
    exact ⟨rfl, rfl⟩
  · split
    next => exact ⟨rfl, rfl⟩
    next => exact ⟨rfl, rfl⟩
  · split
    next => exact ⟨rfl, rfl⟩
    next =>
      split
      next => exact ⟨rfl, rfl⟩
      next => exact ⟨rfl, rfl⟩

theorem reserve_granted {faults : ReserveFaults} (granted : ¬faults.Refuses) (record : Record)
    {register : MemoryRegister Record} {size : ℕ} (grows : register.capacity < size) :
    (register.reserve faults record size).2 = none ∧
      (register.reserve faults record size).1.capacity = size := by
  simp only [capacity] at grows
  simp only [ReserveFaults.Refuses, not_or] at granted
  simp only [MemoryRegister.reserve, if_pos grows, if_neg granted.1, if_neg granted.2.1,
    if_neg granted.2.2, capacity, List.length_append, List.length_replicate, true_and]
  omega

end MemoryRegister

namespace CombinedMemoryRegister

variable {Record : Type} {globalFaults localFaults : ReserveFaults}
  {register : CombinedMemoryRegister Record} {size : ℕ}

theorem reserve_refused (refuses : globalFaults.Refuses) (localFaults : ReserveFaults)
    (record : Record) (grows : register.globalRegister.capacity < size) :
    (register.reserve globalFaults localFaults record size).2 = some .badAlloc ∧
      (register.reserve globalFaults localFaults record size).1.globalRegister.capacity =
        register.globalRegister.capacity ∧
      (register.reserve globalFaults localFaults record size).1.localRegister =
        register.localRegister := by
  rcases MemoryRegister.reserve_refused refuses record grows with ⟨throws, same⟩
  simp only [CombinedMemoryRegister.reserve]
  generalize register.globalRegister.reserve globalFaults record size = outcome at throws same
  rcases outcome with ⟨grown, thrown⟩
  simp only at throws
  subst throws
  exact ⟨rfl, same, rfl⟩

/-- Once the global register has grown, the local one decides. -/
theorem reserve_granted (granted : ¬globalFaults.Refuses) (localFaults : ReserveFaults)
    (record : Record) (globalGrows : register.globalRegister.capacity < size)
    (localGrows : register.localRegister.capacity < size) :
    (register.reserve globalFaults localFaults record size).1.globalRegister.capacity = size ∧
      ((register.reserve globalFaults localFaults record size).2 = none ↔
        ¬localFaults.Refuses) ∧
      ((register.reserve globalFaults localFaults record size).2 = none →
        (register.reserve globalFaults localFaults record size).1.localRegister.capacity =
          size) := by
  rcases MemoryRegister.reserve_granted granted record globalGrows with ⟨fits, globalSize⟩
  have refused := fun refuses : localFaults.Refuses =>
    MemoryRegister.reserve_refused refuses record localGrows
  have grown := fun granted : ¬localFaults.Refuses =>
    MemoryRegister.reserve_granted granted record localGrows
  simp only [CombinedMemoryRegister.reserve]
  generalize register.globalRegister.reserve globalFaults record size = outcome at fits globalSize
  rcases outcome with ⟨globalRegister, thrown⟩
  simp only at fits globalSize
  subst fits
  simp only
  refine ⟨globalSize, ?_, ?_⟩
  · constructor
    · intro succeeds refuses
      rw [(refused refuses).1] at succeeds
      cases succeeds
    · intro granted
      exact (grown granted).1
  · intro succeeds
    by_cases refuses : localFaults.Refuses
    · rw [(refused refuses).1] at succeeds
      cases succeeds
    · exact (grown refuses).2

end CombinedMemoryRegister

/-- How many slots of each kind there is room for. -/
structure Rooms where
  capacity : ℕ
  tableGlobal : ℕ
  tableLocal : ℕ
  addedMin : ℕ
  addedMax : ℕ
  verbsGlobal : ℕ
  verbsLocal : ℕ
deriving DecidableEq, Repr

/-- There is room for a number of slots of each kind, and for no more. -/
def Rooms.full (size : ℕ) : Rooms := ⟨size, size, size, 0, 2 * size + 1, size, size⟩

namespace MemoryTable

variable {n : ℕ} {pid : Fin n} {table tableAfter : MemoryTable} {verbs verbsAfter : IBVerbs n}

def rooms (table : MemoryTable) (verbs : IBVerbs n) : Rooms where
  capacity := table.capacity
  tableGlobal := table.memreg.globalRegister.capacity
  tableLocal := table.memreg.localRegister.capacity
  addedMin := table.added.min
  addedMax := table.added.max
  verbsGlobal := verbs.memreg.globalRegister.capacity
  verbsLocal := verbs.memreg.localRegister.capacity

/-- No allocation of a `reserve` is refused. -/
structure Faults.Granted (faults : Faults) : Prop where
  tableGlobal : ¬faults.tableGlobal.Refuses
  tableLocal : ¬faults.tableLocal.Refuses
  added : faults.added = false
  verbsGlobal : ¬faults.verbsGlobal.Refuses
  verbsLocal : ¬faults.verbsLocal.Refuses

theorem resizeMemreg_granted (globalFaults localFaults : ReserveFaults) {size : ℕ}
    (globalGrows : verbs.memreg.globalRegister.capacity < size)
    (localGrows : verbs.memreg.localRegister.capacity < size) :
    ((verbs.resizeMemreg globalFaults localFaults size).2 = none ↔ size ≤ 2 ^ 31 - 1 ∧
        size ≤ verbs.device.maxMr ∧ ¬globalFaults.Refuses ∧ ¬localFaults.Refuses) ∧
      ((verbs.resizeMemreg globalFaults localFaults size).2 = none →
        (verbs.resizeMemreg globalFaults localFaults size).1.memreg.globalRegister.capacity = size ∧
          (verbs.resizeMemreg globalFaults localFaults size).1.memreg.localRegister.capacity =
            size) := by
  unfold IBVerbs.resizeMemreg
  by_cases tooLarge : size > 2 ^ 31 - 1
  · rw [if_pos tooLarge]
    simp only [reduceCtorEq, false_iff, false_implies, and_true]
    intro fits
    omega
  · rw [if_neg tooLarge]
    by_cases unsupported : size > verbs.device.maxMr
    · rw [if_pos unsupported]
      simp only [reduceCtorEq, false_iff, false_implies, and_true]
      intro fits
      omega
    · rw [if_neg unsupported]
      simp only
      have supported : size ≤ 2 ^ 31 - 1 ∧ size ≤ verbs.device.maxMr := by omega
      by_cases refuses : globalFaults.Refuses
      · have refused := CombinedMemoryRegister.reserve_refused refuses localFaults
          (MemorySlot.null n) globalGrows
        rw [refused.1]
        simp only [reduceCtorEq, false_iff, false_implies, and_true]
        intro fits
        exact fits.2.2.1 refuses
      · rcases CombinedMemoryRegister.reserve_granted refuses localFaults (MemorySlot.null n)
          globalGrows localGrows with ⟨globalSize, succeeds, localSize⟩
        refine ⟨?_, fun granted => ⟨globalSize, localSize granted⟩⟩
        rw [succeeds]
        exact ⟨fun granted => ⟨supported.1, supported.2, refuses, granted⟩, fun all => all.2.2.2⟩

theorem reserve_keeps (faults : Faults) (table : MemoryTable) (verbs : IBVerbs n) (size : ℕ) :
    verbs.SameButMemory (table.reserve faults verbs size).1.2 := by
  have resizes := verbs.sameButMemory_resizeMemreg faults.verbsGlobal faults.verbsLocal size
  unfold MemoryTable.reserve
  split
  next => exact .refl _
  next =>
    split
    next => exact .refl _
    next =>
      generalize verbs.resizeMemreg faults.verbsGlobal faults.verbsLocal size = outcome at resizes
      rcases outcome with ⟨after, _ | exn⟩
      · exact resizes
      · exact resizes

/-- A `reserve` whose first allocation is refused leaves the room as it is. -/
theorem reserve_refused {faults : Faults} (verbs : IBVerbs n)
    (refuses : faults.tableGlobal.Refuses) {size : ℕ}
    (grows : table.memreg.globalRegister.capacity < size) :
    (table.reserve faults verbs size).2 = some .badAlloc ∧
      (table.reserve faults verbs size).1.2 = verbs ∧
      rooms (table.reserve faults verbs size).1.1 verbs = rooms table verbs := by
  rcases CombinedMemoryRegister.reserve_refused refuses faults.tableLocal Memory.null grows with
    ⟨throws, sameGlobal, sameLocal⟩
  unfold MemoryTable.reserve
  generalize table.memreg.reserve faults.tableGlobal faults.tableLocal .null size = outcome
    at throws sameGlobal sameLocal
  rcases outcome with ⟨memreg, thrown⟩
  simp only at throws sameGlobal sameLocal
  subst throws
  refine ⟨rfl, rfl, ?_⟩
  simp only [rooms, sameGlobal, sameLocal]
  rfl

/-- Once its first allocation is granted, a `reserve` has changed the room; it succeeds if all
allocations are granted. -/
theorem reserve_granted {faults : Faults} (granted : ¬faults.tableGlobal.Refuses) {old size : ℕ}
    (full : rooms table verbs = .full old) (grows : old < size) :
    (table.reserve faults verbs size).1.1.memreg.globalRegister.capacity = size ∧
      ((table.reserve faults verbs size).2 = none ↔
        size ≤ 2 ^ 31 - 1 ∧ size ≤ verbs.device.maxMr ∧ faults.Granted) ∧
      ((table.reserve faults verbs size).2 = none →
        rooms (table.reserve faults verbs size).1.1 (table.reserve faults verbs size).1.2 =
          .full size) := by
  simp only [rooms, Rooms.full, Rooms.mk.injEq] at full
  rcases full with ⟨capacity, tableGlobal, tableLocal, addedMin, addedMax, verbsGlobal, verbsLocal⟩
  rcases CombinedMemoryRegister.reserve_granted granted faults.tableLocal Memory.null
    (tableGlobal ▸ grows) (tableLocal ▸ grows) with ⟨globalSize, fits, localSize⟩
  rcases resizeMemreg_granted faults.verbsGlobal faults.verbsLocal (verbsGlobal ▸ grows)
    (verbsLocal ▸ grows) with
    ⟨verbsFit, verbsSize⟩
  unfold MemoryTable.reserve
  generalize table.memreg.reserve faults.tableGlobal faults.tableLocal .null size = outcome
    at globalSize fits localSize
  rcases outcome with ⟨memreg, _ | exn⟩
  · have localGranted := fits.mp rfl
    have localSize := localSize rfl
    have range : memreg.range = 2 * size + 1 := by
      simp only at globalSize localSize
      simp only [CombinedMemoryRegister.range, globalSize, localSize]
      omega
    simp only
    by_cases refused : faults.added = true
    · rw [if_pos ⟨refused, by rw [range]; omega⟩]
      refine ⟨globalSize, ?_, fun impossible => by cases impossible⟩
      simp only [reduceCtorEq, false_iff]
      rintro ⟨_, _, all⟩
      rw [all.added] at refused
      cases refused
    · rw [if_neg fun both => refused both.1]
      have addedGranted := Bool.eq_false_iff.mpr refused
      generalize verbs.resizeMemreg faults.verbsGlobal faults.verbsLocal size = resized
        at verbsFit verbsSize
      rcases resized with ⟨after, _ | exn⟩
      · rcases verbsFit.mp rfl with ⟨small, supported, verbsGranted⟩
        refine ⟨globalSize, iff_of_true rfl ⟨small, supported, granted, localGranted, addedGranted,
          verbsGranted.1, verbsGranted.2⟩, fun _ => ?_⟩
        have grows : table.added.max < memreg.range := by
          rw [range]
          omega
        simp only [rooms, Rooms.full, MemoryTable.capacity, SparseSet.resize, range,
          if_neg (show ¬2 * size + 1 < table.added.max by omega),
          if_pos (show 2 * size + 1 > table.added.max by omega), SparseSet.extend]
        simp only [Rooms.mk.injEq]
        exact ⟨trivial, globalSize, localSize, addedMin, trivial, (verbsSize rfl).1,
          (verbsSize rfl).2⟩
      · refine ⟨globalSize, ?_, fun impossible => by cases impossible⟩
        simp only [reduceCtorEq, false_iff]
        rintro ⟨small, supported, all⟩
        cases verbsFit.mpr ⟨small, supported, all.verbsGlobal, all.verbsLocal⟩
  · refine ⟨globalSize, ?_, fun impossible => by cases impossible⟩
    simp only [reduceCtorEq, false_iff]
    rintro ⟨_, _, all⟩
    cases fits.mpr all.tableLocal

/-- The constructor succeeds on devices that support a memory region only. -/
theorem resizeMemreg_initial {device : Device n}
    (constructs : (MemoryTable.initial.reserve .none (IBVerbs.initial device) 1).2 = none) :
    (IBVerbs.initial device).resizeMemreg .none .none 1 =
      ({ IBVerbs.initial device with
        memreg := (CombinedMemoryRegister.empty.reserve .none .none (.null n) 1).1 }, none) := by
  by_cases unsupported : 1 > device.maxMr
  · have resized : (IBVerbs.initial device).resizeMemreg .none .none 1 =
        (IBVerbs.initial device, some .badAlloc) := by
      rw [IBVerbs.resizeMemreg, if_neg (by decide)]
      exact if_pos unsupported
    have thrown : (MemoryTable.initial.reserve .none (IBVerbs.initial device) 1).2 =
        some .badAlloc := by
      simp only [MemoryTable.reserve, Faults.none, Bool.false_eq_true, false_and, if_false, resized]
      rfl
    rw [thrown] at constructs
    cases constructs
  · rw [IBVerbs.resizeMemreg, if_neg (by decide)]
    exact if_neg unsupported

/-- The room that the constructor reserves. -/
theorem rooms_initial {device : Device n}
    (constructs : (MemoryTable.initial.reserve .none (IBVerbs.initial device) 1).2 = none) :
    rooms (MemoryTable.initial.reserve .none (IBVerbs.initial device) 1).1.1
      (MemoryTable.initial.reserve .none (IBVerbs.initial device) 1).1.2 = .full 1 := by
  simp only [MemoryTable.reserve, Faults.none, Bool.false_eq_true, false_and, if_false,
    resizeMemreg_initial constructs]
  rfl

theorem regGlobal_keeps {addr size : ℕ} {answers : List (machine n).Answer}
    {result : Except Exn ℕ}
    (follows : Follows (verbs.regGlobal addr size) answers (verbsAfter, result)) :
    verbs.SameButMemory verbsAfter := by
  have opened := IBVerbs.sameButMemory_openMr verbs size
  simp only [IBVerbs.regGlobal] at follows
  split at follows
  next =>
    rcases Follows.call_iff.mp follows with ⟨_, _, rfl, thrown⟩
    rcases Follows.done_iff.mp thrown with ⟨rfl, made⟩
    rw [Prod.mk.injEq] at made
    rw [made.1]
    exact opened
  next =>
    rcases Follows.call_iff.mp follows with ⟨failed, _, rfl, rest⟩
    split at rest
    next =>
      rcases Follows.done_iff.mp rest with ⟨rfl, made⟩
      rw [Prod.mk.injEq] at made
      rw [made.1]
      exact opened
    next =>
      split at rest
      next => exact absurd rest Follows.not_fault
      next =>
        rcases Follows.call_iff.mp rest with ⟨_, _, rfl, finished⟩
        rcases Follows.done_iff.mp finished with ⟨rfl, made⟩
        rw [Prod.mk.injEq] at made
        rw [made.1]
        exact opened.trans rfl

/-- A registration adds slots to the verbs layer but no room. -/
theorem rooms_regGlobal {addr size : ℕ} {answers : List (machine n).Answer}
    {result : Except Exn ℕ} (table : MemoryTable)
    (follows : Follows (verbs.regGlobal addr size) answers (verbsAfter, result)) :
    rooms table verbsAfter = rooms table verbs := by
  rcases regGlobal_follows follows with
    ⟨_, _, _, _, same⟩ | ⟨_, grown, change, _, _, added, _, same⟩
  · rw [rooms, same]
    rfl
  · rw [rooms, same, MemoryRegister.capacity_update, MemoryRegister.capacity_add added]
    rfl

theorem rooms_addLocal {mem size : ℕ} {result : Except Exn ℕ}
    (adds : table.addLocal pid verbs mem size = some ((tableAfter, verbsAfter), result)) :
    rooms tableAfter verbsAfter = rooms table verbs ∧ verbs.SameButMemory verbsAfter := by
  simp only [MemoryTable.addLocal] at adds
  split at adds
  next => cases adds
  next registered exn registers =>
    simp only [Option.some.injEq, Prod.mk.injEq] at adds
    rcases adds with ⟨⟨rfl, rfl⟩, _⟩
    refine ⟨?_, IBVerbs.sameButMemory_regLocal registers⟩
    rcases regLocal_cases registers with ⟨_, same⟩ | ⟨_, _, _, _, isOk, _⟩
    · rw [rooms, same]
      rfl
    · cases isOk
  next registered id registers =>
    rcases Option.map_eq_some_iff.mp adds with ⟨⟨slot, memreg⟩, stores, made⟩
    simp only [Prod.mk.injEq] at made
    rcases made with ⟨⟨rfl, rfl⟩, _⟩
    rcases Option.map_eq_some_iff.mp stores with ⟨⟨number, localRegister⟩, stored, same⟩
    simp only [Prod.mk.injEq] at same
    rcases same with ⟨_, rfl⟩
    refine ⟨?_, IBVerbs.sameButMemory_regLocal registers⟩
    rcases regLocal_cases registers with ⟨isError, _⟩ | ⟨entry, grown, change, added, _, moved⟩
    · cases isError
    · rw [rooms, moved, MemoryRegister.capacity_update, MemoryRegister.capacity_add added,
        MemoryRegister.capacity_add stored]
      rfl

theorem rooms_addGlobal {mem size slot : ℕ} (verbs : IBVerbs n)
    (adds : table.addGlobal mem size = some (tableAfter, slot)) :
    rooms tableAfter verbs = rooms table verbs := by
  simp only [MemoryTable.addGlobal] at adds
  split at adds
  next => cases adds
  next number memreg stores =>
    split at adds
    next =>
      simp only [Option.some.injEq, Prod.mk.injEq] at adds
      rcases adds with ⟨rfl, rfl⟩
      rcases Option.map_eq_some_iff.mp stores with ⟨⟨global, globalRegister⟩, stored, same⟩
      simp only [Prod.mk.injEq] at same
      rcases same with ⟨rfl, rfl⟩
      rw [rooms, (SparseSet.range_insert _ _).1, (SparseSet.range_insert _ _).2,
        MemoryRegister.capacity_add stored]
      rfl
    next => cases adds

theorem capacity_removeReg {Record : Type} {register after : CombinedMemoryRegister Record}
    {slot : ℕ} (removes : register.removeReg slot = some after) :
    after.globalRegister.capacity = register.globalRegister.capacity ∧
      after.localRegister.capacity = register.localRegister.capacity := by
  unfold CombinedMemoryRegister.removeReg at removes
  split at removes
  · rcases Option.map_eq_some_iff.mp removes with ⟨register, removed, rfl⟩
    exact ⟨rfl, MemoryRegister.capacity_remove removed⟩
  · rcases Option.map_eq_some_iff.mp removes with ⟨register, removed, rfl⟩
    exact ⟨MemoryRegister.capacity_remove removed, rfl⟩

theorem rooms_remove {slot : ℕ}
    (removes : table.remove verbs slot = some (tableAfter, verbsAfter)) :
    rooms tableAfter verbsAfter = rooms table verbs ∧ verbs.SameButMemory verbsAfter := by
  simp only [MemoryTable.remove] at removes
  split at removes
  next =>
    rcases Option.map_eq_some_iff.mp removes with ⟨memreg, removed, made⟩
    rw [Prod.mk.injEq] at made
    rcases made with ⟨rfl, rfl⟩
    rcases capacity_removeReg removed with ⟨global, local_⟩
    refine ⟨?_, .refl _⟩
    rw [rooms, (SparseSet.range_erase _ _).1, (SparseSet.range_erase _ _).2, global, local_]
    rfl
  next =>
    split at removes
    next => cases removes
    next =>
      split at removes
      next => cases removes
      next deregistered deregisters =>
        rcases Option.map_eq_some_iff.mp removes with ⟨memreg, removed, made⟩
        rw [Prod.mk.injEq] at made
        rcases made with ⟨rfl, rfl⟩
        refine ⟨?_, IBVerbs.sameButMemory_dereg deregisters⟩
        rcases Option.map_eq_some_iff.mp deregisters with ⟨verbsMemreg, dropped, rfl⟩
        rcases capacity_removeReg removed with ⟨global, local_⟩
        rcases capacity_removeReg dropped with ⟨verbsGlobal, verbsLocal⟩
        rw [rooms, global, local_, verbsGlobal, verbsLocal]
        rfl

theorem rooms_syncSlots {slots : List ℕ} {answers : List (machine n).Answer}
    {thrown : Option Exn}
    (follows : Follows (syncSlots slots table verbs) answers ((tableAfter, verbsAfter), thrown)) :
    rooms tableAfter verbsAfter = rooms table verbs ∧ verbs.SameButMemory verbsAfter := by
  induction slots generalizing table verbs answers with
  | nil =>
      rcases Follows.done_iff.mp follows with ⟨_, made⟩
      simp only [Prod.mk.injEq] at made
      rcases made with ⟨⟨rfl, rfl⟩, _⟩
      exact ⟨rfl, .refl _⟩
  | cons i slots ih =>
      simp only [syncSlots] at follows
      split at follows
      next => exact absurd follows Follows.not_fault
      next =>
        split at follows
        next => exact absurd follows Follows.not_fault
        next memory found =>
          rcases Follows.bind_iff.mp follows with ⟨_, _, ⟨middle, result⟩, rfl, head, tail⟩
          have room := rooms_regGlobal table head
          have keeps := regGlobal_keeps head
          cases result with
          | error exn =>
              rcases Follows.done_iff.mp tail with ⟨_, made⟩
              simp only [Prod.mk.injEq] at made
              rcases made with ⟨⟨rfl, rfl⟩, _⟩
              exact ⟨room, keeps⟩
          | ok s =>
              rcases ih tail with ⟨rest, keepsRest⟩
              refine ⟨rest.trans (Eq.trans ?_ room), keeps.trans keepsRest⟩
              unfold CombinedMemoryRegister.update
              split <;> simp [rooms, MemoryTable.capacity]

/-- A sync registers pending slots but adds no room. -/
theorem rooms_sync {answers : List (machine n).Answer} {thrown : Option Exn}
    (follows : Follows (table.sync verbs) answers ((tableAfter, verbsAfter), thrown)) :
    rooms tableAfter verbsAfter = rooms table verbs ∧ verbs.SameButMemory verbsAfter := by
  unfold MemoryTable.sync at follows
  split at follows
  next =>
    rcases Follows.done_iff.mp follows with ⟨_, made⟩
    simp only [Prod.mk.injEq] at made
    rcases made with ⟨⟨rfl, rfl⟩, _⟩
    exact ⟨rfl, .refl _⟩
  next =>
    rcases Follows.bind_iff.mp follows with ⟨_, _, ⟨⟨tableMiddle, middle⟩, result⟩, rfl, head, tail⟩
    have kept := rooms_syncSlots head
    cases result with
    | some exn =>
        rcases Follows.done_iff.mp tail with ⟨_, made⟩
        simp only [Prod.mk.injEq] at made
        rcases made with ⟨⟨rfl, rfl⟩, _⟩
        exact kept
    | none =>
        rcases Follows.call_iff.mp tail with ⟨_, _, rfl, finished⟩
        rcases Follows.done_iff.mp finished with ⟨_, made⟩
        simp only [Prod.mk.injEq] at made
        rcases made with ⟨⟨rfl, rfl⟩, _⟩
        exact kept

end MemoryTable

end Talpf
