import Talpf.IBVerbs.Sync
import Talpf.SparseSet

/-!
# The memory table

`MemoryTable` maps the slots of the interface to memory areas and to the slots
of the verbs layer.  A local area is registered with the device at once; a
global one is only noted in the set `added` and registered by the next `sync`,
which visits the set in the order of its enumeration and exchanges the areas of
all processes, one collective after the other.
-/

namespace Talpf

namespace IBVerbs

variable {n : ℕ}

/-- Ask the device to register a memory region. -/
def ibvRegMr (verbs : IBVerbs n) : Option Mr × IBVerbs n :=
  (verbs.device.regMr verbs.device.regMrCalls,
    { verbs with device := { verbs.device with regMrCalls := verbs.device.regMrCalls + 1 } })

/-- Register a memory region unless it is empty. -/
def openMr (verbs : IBVerbs n) (size : ℕ) : Option Mr × IBVerbs n :=
  if size > 0 then verbs.ibvRegMr else (none, verbs)

/-- What a process announces about a memory area of its own. -/
def describe (addr size : ℕ) (mr : Option Mr) : MemoryRegistration where
  addr := addr
  size := size
  lkey := (mr.map Mr.lkey).getD 0
  rkey := (mr.map Mr.rkey).getD 0

/-- Register a memory area for this process only.  `none` is a failed assertion.  The slot of a
refused area is dropped, by null deletion (see `Device`) without an effect. -/
def regLocal (pid : Fin n) (verbs : IBVerbs n) (addr size : ℕ) :
    Option (IBVerbs n × Except Exn ℕ) :=
  let (mr, verbs) := verbs.openMr size
  if size > 0 ∧ mr.isNone then some (verbs, .error .exception)
  else
    (verbs.memreg.addLocalReg ⟨mr, fun _ => .null⟩).map fun (id, memreg) =>
      ({ verbs with
        memreg := memreg.update id fun slot =>
          { slot with glob := Function.update slot.glob pid (describe addr size mr) } }, .ok id)

/-- Register a memory area on all processes.  Null deletion (see `Device`) is assumed as in
`regLocal`. -/
def regGlobal (verbs : IBVerbs n) (addr size : ℕ) : Comm n (IBVerbs n × Except Exn ℕ) :=
  let (mr, verbs) := verbs.openMr size
  if size > 0 ∧ mr.isNone then
    .call (.allreduceAnd true) fun _ => .done (verbs, .error .exception)
  else
    .call (.allreduceOr false) fun (failed : Bool) =>
      if failed then .done (verbs, .error .exception)
      else
        match verbs.memreg.addGlobalReg ⟨mr, fun _ => .null⟩ with
        | none => .fault
        | some (id, memreg) =>
            .call (.allgatherRegistration (describe addr size mr)) fun glob =>
              .done ({ verbs with
                memreg := memreg.update id fun slot => { slot with glob := glob } }, .ok id)

/-- Drop a registration. -/
def dereg (verbs : IBVerbs n) (id : ℕ) : Option (IBVerbs n) :=
  (verbs.memreg.removeReg id).map fun memreg => { verbs with memreg := memreg }

end IBVerbs

/-- A registered memory area. -/
structure Memory where
  addr : ℕ
  size : ℕ
  /-- The slot of the verbs layer, once there is one. -/
  slot : ℕ
deriving DecidableEq, Repr

namespace Memory

/-- `IBVerbs::SlotID(-1)` -/
def invalidSlot : ℕ := 2 ^ 64 - 1

def null : Memory := ⟨0, 0, invalidSlot⟩

end Memory

structure MemoryTable where
  memreg : CombinedMemoryRegister Memory
  tableCapacity : ℕ
  /-- Global slots that are not registered with the verbs layer yet -/
  added : SparseSet
deriving Repr

namespace MemoryTable

open Spmd

variable {n : ℕ}

def initial : MemoryTable := ⟨.empty, 0, .reset 0 0⟩

/-- Register a memory area for this process.  `none` is a failed assertion. -/
def addLocal (pid : Fin n) (table : MemoryTable) (verbs : IBVerbs n) (mem size : ℕ) :
    Option ((MemoryTable × IBVerbs n) × Except Exn ℕ) :=
  match IBVerbs.regLocal pid verbs mem size with
  | none => none
  | some (verbs, .error exn) => some ((table, verbs), .error exn)
  | some (verbs, .ok id) =>
      (table.memreg.addLocalReg ⟨mem, size, id⟩).map fun (slot, memreg) =>
        (({ table with memreg := memreg }, verbs), .ok slot)

/-- Note a memory area that all processes register.  `none` is a failed assertion. -/
def addGlobal (table : MemoryTable) (mem size : ℕ) : Option (MemoryTable × ℕ) :=
  match table.memreg.addGlobalReg ⟨mem, size, Memory.invalidSlot⟩ with
  | none => none
  | some (slot, memreg) =>
      if table.added.min ≤ slot ∧ slot ≤ table.added.max then
        some ({ table with memreg := memreg, added := table.added.insert slot }, slot)
      else none

/-- Remove a slot.  `none` is a failed assertion. -/
def remove (table : MemoryTable) (verbs : IBVerbs n) (slot : ℕ) :
    Option (MemoryTable × IBVerbs n) :=
  if table.added.contains slot then
    (table.memreg.removeReg slot).map fun memreg =>
      ({ table with memreg := memreg, added := table.added.erase slot }, verbs)
  else
    match table.memreg.lookup slot with
    | none => none
    | some memory =>
        match verbs.dereg memory.slot with
        | none => none
        | some verbs =>
            (table.memreg.removeReg slot).map fun memreg =>
              ({ table with memreg := memreg }, verbs)

/-- Which allocations of a `reserve` throw. -/
structure Faults where
  tableGlobal : ReserveFaults
  tableLocal : ReserveFaults
  /-- The set of added slots cannot grow. -/
  added : Bool
  verbsGlobal : ReserveFaults
  verbsLocal : ReserveFaults
deriving DecidableEq, Repr

namespace Faults

def none : Faults := ⟨.none, .none, false, .none, .none⟩

end Faults

/-- Reserve memory for a number of slots of each kind. -/
def reserve (faults : Faults) (table : MemoryTable) (verbs : IBVerbs n) (size : ℕ) :
    (MemoryTable × IBVerbs n) × Option Exn :=
  match table.memreg.reserve faults.tableGlobal faults.tableLocal .null size with
  | (memreg, some exn) => (({ table with memreg := memreg }, verbs), some exn)
  | (memreg, none) =>
      if faults.added ∧ table.added.max < memreg.range then
        (({ table with memreg := memreg }, verbs), some .badAlloc)
      else
        let table := { table with memreg := memreg, added := table.added.resize memreg.range }
        match verbs.resizeMemreg faults.verbsGlobal faults.verbsLocal size with
        | (verbs, some exn) => ((table, verbs), some exn)
        | (verbs, none) => (({ table with tableCapacity := size }, verbs), none)

def capacity (table : MemoryTable) : ℕ := table.tableCapacity

def range (table : MemoryTable) : ℕ := table.memreg.range

/-- Register the given slots with the verbs layer, in this order. -/
def syncSlots : List ℕ → MemoryTable → IBVerbs n →
    Comm n ((MemoryTable × IBVerbs n) × Option Exn)
  | [], table, verbs => .done ((table, verbs), none)
  | i :: slots, table, verbs =>
      if CombinedMemoryRegister.isLocalSlot i then .fault
      else
        match table.memreg.lookup i with
        | none => .fault
        | some memory =>
            (verbs.regGlobal memory.addr memory.size).bind fun (verbs, registered) =>
              match registered with
              | .error exn => .done ((table, verbs), some exn)
              | .ok s =>
                  syncSlots slots
                    { table with memreg := table.memreg.update i fun memory =>
                        { memory with slot := s } } verbs

/-- Register all slots that were added since the last time. -/
def sync (table : MemoryTable) (verbs : IBVerbs n) :
    Comm n ((MemoryTable × IBVerbs n) × Option Exn) :=
  if table.added.empty then .done ((table, verbs), none)
  else
    (syncSlots table.added.elements table verbs).bind fun ((table, verbs), thrown) =>
      match thrown with
      | some exn => .done ((table, verbs), some exn)
      | none =>
          .call .barrier fun _ => .done (({ table with added := table.added.clear }, verbs), none)

end MemoryTable

end Talpf
