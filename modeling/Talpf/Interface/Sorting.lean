import Talpf.Interface.Prepared
import Talpf.MemoryRegister.Records
import Talpf.MessageQueue.SlotTables

/-!
# Requests and the message sort

Areas are registered with the message sort as well, and that has no slots before
a resize of the memory register has grown it.  A script whose registrations come
after such a resize fails no assertion there, whatever the collectives return,
and the message sort changes nothing else.
-/

namespace Talpf

open Spmd
open CombinedMemoryRegister (toGlobal toLocal)

variable {n : ℕ}

namespace Request

/-- How many slots of each kind there are after a request. -/
def raise (capacity : ℕ) : Request → ℕ
  | .resizeMemreg nRegs => max capacity (nRegs + 1)
  | .registerLocal _ _ | .deregisterLocal _ | .registerGlobal _ _ | .deregisterGlobal _
  | .resizeMesgQueue _ => capacity

/-- A registration finds more than the one slot of the constructor, which the message sort does
not know of, and its area lies in the address space. -/
def Sortable (capacity : ℕ) : Request → Prop
  | .registerLocal mem size | .registerGlobal mem size => 1 < capacity ∧ mem + size ≤ sizeMax
  | .deregisterLocal _ | .deregisterGlobal _ | .resizeMesgQueue _ | .resizeMemreg _ => True

instance (capacity : ℕ) (request : Request) : Decidable (request.Sortable capacity) := by
  cases request <;> unfold Sortable <;> infer_instance

/-- Make a request as the contract demands of the caller of a queue with a message sort. -/
def allow (maxMr : ℕ) (ledger : Ledger) (request : Request) : Option Ledger :=
  if request.Sortable ledger.capacity then request.accept maxMr ledger else none

theorem capacity_accept {maxMr : ℕ} {ledger after : Ledger} {request : Request}
    (accepted : request.accept maxMr ledger = some after) :
    after.capacity = request.raise ledger.capacity := by
  cases request with
  | registerLocal mem size =>
      rcases Option.ite_none_right_eq_some.mp accepted with ⟨_, same⟩
      exact Option.some.inj same ▸ rfl
  | deregisterLocal k =>
      rcases Option.ite_none_right_eq_some.mp accepted with ⟨_, same⟩
      exact Option.some.inj same ▸ rfl
  | registerGlobal mem size =>
      rcases Option.ite_none_right_eq_some.mp accepted with ⟨_, same⟩
      exact Option.some.inj same ▸ rfl
  | deregisterGlobal k =>
      rcases Option.ite_none_right_eq_some.mp accepted with ⟨_, same⟩
      exact Option.some.inj same ▸ rfl
  | resizeMesgQueue nMsgs =>
      rcases Option.ite_none_right_eq_some.mp accepted with ⟨_, same⟩
      exact Option.some.inj same ▸ rfl
  | resizeMemreg nRegs =>
      rcases Option.ite_none_right_eq_some.mp accepted with ⟨_, same⟩
      exact Option.some.inj same ▸ rfl

/-- What the contract of the queue with a message sort admits fulfils that of the queue alone. -/
theorem accept_of_allow {maxMr : ℕ} {ledger final : Ledger} {requests : List Request}
    (admitted : requests.foldlM (allow maxMr) ledger = some final) :
    requests.foldlM (accept maxMr) ledger = some final := by
  induction requests generalizing ledger with
  | nil => exact admitted
  | cons request requests ih =>
      rw [List.foldlM_cons] at admitted ⊢
      rcases Option.bind_eq_some_iff.mp admitted with ⟨middle, first, rest⟩
      rw [(Option.ite_none_right_eq_some.mp first).2]
      exact ih rest

end Request

/-- A process with its message sort. -/
structure SortedCaller (n : ℕ) where
  caller : Caller n
  msgsort : MessageSort

namespace SortedCaller

def queue (sorted : SortedCaller n) : SortedQueue n := ⟨sorted.caller.queue, sorted.msgsort⟩

def withQueue (sorted : SortedCaller n) (queue : SortedQueue n) : SortedCaller n :=
  ⟨sorted.caller.withQueue queue.queue, queue.msgsort⟩

def withLocals (sorted : SortedCaller n) (locals : List Registration) : SortedCaller n :=
  { sorted with caller := { sorted.caller with locals := locals } }

def withGlobals (sorted : SortedCaller n) (globals : List Registration) : SortedCaller n :=
  { sorted with caller := { sorted.caller with globals := globals } }

/-- Remove the `k`-th registration of a list. -/
def deregister (sorted : SortedCaller n) (registrations : List Registration) (k : ℕ) :
    Option (SortedCaller n × List Registration) :=
  match registrations[k]? with
  | none => none
  | some registration =>
      if registration.live then
        (sorted.queue.removeReg registration.slot).map fun queue =>
          (sorted.withQueue queue, registrations.set k registration.close)
      else none

/-- Make a call; `none` stands for one that fails. -/
def make (pid : Fin n) (sorted : SortedCaller n) : Request → Option (SortedCaller n)
  | .registerLocal mem size =>
      match sorted.queue.addLocalReg pid mem size with
      | some (queue, .ok slot) =>
          some ((sorted.withQueue queue).withLocals
            (sorted.caller.locals ++ [⟨slot, mem, size, true⟩]))
      | _ => none
  | .deregisterLocal k =>
      (sorted.deregister sorted.caller.locals k).map fun (sorted, locals) =>
        sorted.withLocals locals
  | .registerGlobal mem size =>
      (sorted.queue.addGlobalReg mem size).map fun (queue, slot) =>
        (sorted.withQueue queue).withGlobals
          (sorted.caller.globals ++ [⟨slot, mem, size, true⟩])
  | .deregisterGlobal k =>
      (sorted.deregister sorted.caller.globals k).map fun (sorted, globals) =>
        sorted.withGlobals globals
  | .resizeMesgQueue nMsgs =>
      match sorted.queue.resizeMesgQueue nMsgs with
      | (queue, some .success) => some (sorted.withQueue queue)
      | _ => none
  | .resizeMemreg nRegs =>
      match sorted.queue.resizeMemreg ⟨.none, .none⟩ nRegs with
      | (queue, some .success) => some (sorted.withQueue queue)
      | _ => none

def makeAll (pid : Fin n) (sorted : SortedCaller n) (requests : List Request) :
    Option (SortedCaller n) :=
  requests.foldlM (make pid) sorted

/-- The rest of an SPMD function; its result are the return codes of all its syncs. -/
def run (pid : Fin n) (task : Task) (last : List Request) :
    List (List Request) → SortedCaller n → List Err →
      Comm n (Interface n × Except Exn (List Err))
  | [], sorted, codes =>
      match sorted.makeAll pid last with
      | none => .fault
      | some sorted => .done (sorted.caller.runtime, .ok codes)
  | requests :: supersteps, sorted, codes =>
      match sorted.makeAll pid requests with
      | none => .fault
      | some sorted =>
          (sorted.caller.runtime.sync pid task .default).bind fun (runtime, result) =>
            match result with
            | .error exn => .done (runtime, .error exn)
            | .ok code =>
                runtime.completeRequest.bind fun runtime =>
                  run pid task last supersteps
                    { sorted with caller := { sorted.caller with runtime := runtime } }
                    (codes ++ [code])

end SortedCaller

/-- A registration for one process takes a slot of the local register. -/
theorem MemoryTable.addLocal_ok {pid : Fin n} {table tableAfter : MemoryTable}
    {verbs verbsAfter : IBVerbs n} {mem size slot : ℕ}
    (registers : table.addLocal pid verbs mem size = some ((tableAfter, verbsAfter), .ok slot)) :
    ∃ number record register, table.memreg.localRegister.add record = some (number, register) ∧
      slot = toLocal number ∧ tableAfter.memreg = ⟨register, table.memreg.globalRegister⟩ := by
  simp only [MemoryTable.addLocal] at registers
  split at registers
  next => cases registers
  next => cases registers
  next =>
    rcases Option.map_eq_some_iff.mp registers with ⟨⟨_, memreg⟩, stores, made⟩
    rcases Option.map_eq_some_iff.mp stores with ⟨⟨number, register⟩, stored, same⟩
    cases same
    cases made
    exact ⟨number, _, register, stored, rfl, rfl⟩

theorem MemoryTable.addGlobal_some {table tableAfter : MemoryTable} {mem size slot : ℕ}
    (registers : table.addGlobal mem size = some (tableAfter, slot)) :
    ∃ number record register, table.memreg.globalRegister.add record = some (number, register) ∧
      slot = toGlobal number ∧ tableAfter.memreg = ⟨table.memreg.localRegister, register⟩ := by
  simp only [MemoryTable.addGlobal] at registers
  split at registers
  next => cases registers
  next stores =>
    split at registers
    next =>
      cases registers
      rcases Option.map_eq_some_iff.mp stores with ⟨⟨number, register⟩, stored, same⟩
      cases same
      exact ⟨number, _, register, stored, rfl, rfl⟩
    next => cases registers

theorem MemoryTable.remove_some {table tableAfter : MemoryTable} {verbs verbsAfter : IBVerbs n}
    {slot : ℕ} (removes : table.remove verbs slot = some (tableAfter, verbsAfter)) :
    table.memreg.removeReg slot = some tableAfter.memreg := by
  simp only [MemoryTable.remove] at removes
  split at removes
  next =>
    rcases Option.map_eq_some_iff.mp removes with ⟨memreg, removed, made⟩
    cases made
    exact removed
  next =>
    split at removes
    next => cases removes
    next =>
      split at removes
      next => cases removes
      next =>
        rcases Option.map_eq_some_iff.mp removes with ⟨memreg, removed, made⟩
        cases made
        exact removed

/-- The registers of a memory table deal the same slots, and stay well-formed. -/
structure SameDealers (before after : MemoryTable) : Prop where
  globals : after.memreg.globalRegister.dealer = before.memreg.globalRegister.dealer
  locals : after.memreg.localRegister.dealer = before.memreg.localRegister.dealer
  wellFormed : before.memreg.WellFormed → after.memreg.WellFormed

namespace SameDealers

variable {before middle after : MemoryTable}

theorem refl (table : MemoryTable) : SameDealers table table := ⟨rfl, rfl, id⟩

theorem trans (first : SameDealers before middle) (second : SameDealers middle after) :
    SameDealers before after :=
  ⟨second.globals.trans first.globals, second.locals.trans first.locals,
    second.wellFormed ∘ first.wellFormed⟩

theorem update (table : MemoryTable) (slot : ℕ) (change : Memory → Memory) :
    SameDealers table { table with memreg := table.memreg.update slot change } := by
  simp only [CombinedMemoryRegister.update]
  split
  next =>
    exact ⟨rfl, rfl, fun wellFormed =>
      ⟨wellFormed.localRegister.update _ _, wellFormed.globalRegister⟩⟩
  next =>
    exact ⟨rfl, rfl, fun wellFormed =>
      ⟨wellFormed.localRegister, wellFormed.globalRegister.update _ _⟩⟩

theorem inUse (same : SameDealers before after) (slot : ℕ) :
    MemoryTable.InUse after.memreg slot ↔ MemoryTable.InUse before.memreg slot := by
  rw [MemoryTable.InUse, MemoryTable.InUse, same.globals, same.locals]

theorem of_reserved (globalFaults localFaults : ReserveFaults) (table : MemoryTable) (size : ℕ) :
    ∀ capacity added, SameDealers table
      ⟨(table.memreg.reserve globalFaults localFaults .null size).1, capacity, added⟩ := by
  intro capacity added
  have sameGlobals := MemoryRegister.dealer_reserve globalFaults Memory.null
    table.memreg.globalRegister size
  have sameLocals := MemoryRegister.dealer_reserve localFaults Memory.null
    table.memreg.localRegister size
  refine ⟨?_, ?_, fun wellFormed =>
    (wellFormed.reserve globalFaults localFaults Memory.null size).1⟩
  · simp only [CombinedMemoryRegister.reserve]
    generalize table.memreg.globalRegister.reserve globalFaults .null size = globals at sameGlobals
    rcases globals with ⟨_, _ | exn⟩ <;> exact sameGlobals
  · simp only [CombinedMemoryRegister.reserve]
    generalize table.memreg.globalRegister.reserve globalFaults .null size = globals
    rcases globals with ⟨_, _ | exn⟩
    · exact sameLocals
    · rfl

/-- Reserving slots deals none. -/
theorem reserve (faults : MemoryTable.Faults) (table : MemoryTable) (verbs : IBVerbs n)
    (size : ℕ) : SameDealers table (table.reserve faults verbs size).1.1 := by
  have reserved := of_reserved faults.tableGlobal faults.tableLocal table size
  simp only [MemoryTable.reserve]
  generalize table.memreg.reserve faults.tableGlobal faults.tableLocal .null size = outcome
    at reserved ⊢
  rcases outcome with ⟨memreg, _ | exn⟩
  · simp only
    split
    next => exact reserved _ _
    next =>
      generalize verbs.resizeMemreg faults.verbsGlobal faults.verbsLocal size = resized
      rcases resized with ⟨ibverbs, _ | exn⟩ <;> exact reserved _ _
  · exact reserved _ _

/-- Registering pending slots with the verbs layer deals none. -/
theorem syncSlots {slots : List ℕ} {verbs ibverbs : IBVerbs n} {answers : List (machine n).Answer}
    {thrown : Option Exn} (follows : Follows (MemoryTable.syncSlots slots before verbs) answers
      ((after, ibverbs), thrown)) : SameDealers before after := by
  induction slots generalizing before verbs answers with
  | nil =>
      cases (Follows.done_iff.mp follows).2
      exact .refl _
  | cons i slots ih =>
      simp only [MemoryTable.syncSlots] at follows
      split at follows
      next => exact absurd follows Follows.not_fault
      next =>
        split at follows
        next => exact absurd follows Follows.not_fault
        next memory _ =>
          rcases Follows.bind_iff.mp follows with ⟨_, _, ⟨middle, result⟩, _, _, rest⟩
          cases result with
          | error exn =>
              cases (Follows.done_iff.mp rest).2
              exact .refl _
          | ok s => exact (update before i fun memory => { memory with slot := s }).trans (ih rest)

theorem sync {verbs ibverbs : IBVerbs n} {answers : List (machine n).Answer}
    {thrown : Option Exn}
    (follows : Follows (before.sync verbs) answers ((after, ibverbs), thrown)) :
    SameDealers before after := by
  simp only [MemoryTable.sync] at follows
  split at follows
  next =>
    cases (Follows.done_iff.mp follows).2
    exact .refl _
  next =>
    rcases Follows.bind_iff.mp follows with ⟨_, _, ⟨⟨middle, verbs⟩, result⟩, _, first, rest⟩
    have same := syncSlots first
    cases result with
    | some exn =>
        cases (Follows.done_iff.mp rest).2
        exact same
    | none =>
        rcases Follows.call_iff.mp rest with ⟨_, _, _, finished⟩
        cases (Follows.done_iff.mp finished).2
        exact ⟨same.globals, same.locals, same.wellFormed⟩

end SameDealers

/-- What the calls of a process depend on as far as the message sort is concerned. -/
structure Sorts (capacity : ℕ) (sorted : SortedCaller n) : Prop where
  rooms : MemoryTable.rooms sorted.caller.queue.memreg sorted.caller.queue.ibverbs =
    .full capacity
  wellFormed : sorted.caller.queue.memreg.memreg.WellFormed
  locals : Holds sorted.caller.queue.memreg.memreg.localRegister.dealer sorted.caller.locals
  globals : Holds sorted.caller.queue.memreg.memreg.globalRegister.dealer sorted.caller.globals
  odd : ∀ registration ∈ sorted.caller.locals, registration.slot = toLocal registration.number
  even : ∀ registration ∈ sorted.caller.globals, registration.slot = toGlobal registration.number
  /-- Nothing is registered before the message sort has slots. -/
  started : 1 < capacity ∨ ∀ slot, ¬MemoryTable.InUse sorted.caller.queue.memreg.memreg slot
  room : 1 < capacity → 2 * capacity ≤ sorted.msgsort.slotToRegion.length
  prefixed : sorted.msgsort.Prefixed
  memslots : sorted.msgsort.memslots.length ≤ 2 * capacity + 1

namespace Sorts

variable {pid : Fin n} {capacity : ℕ} {sorted : SortedCaller n}

theorem sizes (sorts : Sorts capacity sorted) :
    sorted.caller.queue.memreg.capacity = capacity ∧
      sorted.caller.queue.memreg.memreg.globalRegister.capacity = capacity ∧
      sorted.caller.queue.memreg.memreg.localRegister.capacity = capacity := by
  have rooms := sorts.rooms
  simp only [MemoryTable.rooms, Rooms.full, Rooms.mk.injEq] at rooms
  exact ⟨rooms.1, rooms.2.1, rooms.2.2.1⟩

/-- A slot in use is a valid index of the tables of the message sort. -/
theorem slot_lt (sorts : Sorts capacity sorted) {slot : ℕ}
    (inUse : MemoryTable.InUse sorted.caller.queue.memreg.memreg slot) :
    slot < sorted.msgsort.slotToRegion.length := by
  rcases sorts.sizes with ⟨_, globals, locals⟩
  have dealt : MemoryTable.Dealt sorted.caller.queue.memreg.memreg capacity :=
    ⟨globals ▸ sorts.wellFormed.globalRegister.minNewSlotNrLe,
      locals ▸ sorts.wellFormed.localRegister.minNewSlotNrLe⟩
  rcases sorts.started with started | unused
  · exact (dealt.slot_lt inUse).trans_le (sorts.room started)
  · exact absurd inUse (unused slot)

/-- A call of a process with its message sort has succeeded like the one of the process alone. -/
def Alike (capacity : ℕ) (sorted : SortedCaller n) (caller : Caller n) : Prop :=
  sorted.caller = caller ∧ Sorts capacity sorted

theorem withMsgsort (sorts : Sorts capacity sorted) {msgsort : MessageSort}
    (prefixed : msgsort.Prefixed)
    (memslots : msgsort.memslots.length = sorted.msgsort.memslots.length)
    (slotToRegion : msgsort.slotToRegion.length = sorted.msgsort.slotToRegion.length) :
    Sorts capacity { sorted with msgsort := msgsort } :=
  { sorts with
    prefixed := prefixed
    memslots := memslots ▸ sorts.memslots
    room := slotToRegion ▸ sorts.room }

/-- The area of a slot in use can be registered with the message sort. -/
theorem addRegister (sorts : Sorts capacity sorted) {slot mem size : ℕ}
    (inUse : MemoryTable.InUse sorted.caller.queue.memreg.memreg slot) (nonempty : 0 < size)
    (address : mem + size ≤ sizeMax) :
    ∃ msgsort, sorted.msgsort.addRegister slot mem size = some msgsort ∧
      Sorts capacity { sorted with msgsort := msgsort } := by
  rcases sorts.prefixed.addRegister (sorts.slot_lt inUse) nonempty address with
    ⟨msgsort, adds, prefixed, memslots, slotToRegion⟩
  exact ⟨msgsort, adds, sorts.withMsgsort prefixed memslots slotToRegion⟩

/-- The local register has dealt a slot. -/
theorem addLocal (sorts : Sorts capacity sorted) (started : 1 < capacity) {memreg : MemoryTable}
    {ibverbs : IBVerbs n} {mem size slot : ℕ}
    (registers : sorted.caller.queue.memreg.addLocal pid sorted.caller.queue.ibverbs mem size =
      some ((memreg, ibverbs), .ok slot)) :
    Sorts capacity { sorted with
      caller := sorted.caller.withNode ⟨memreg, ibverbs,
        sorted.caller.locals ++ [⟨slot, mem, size, true⟩], sorted.caller.globals⟩ } ∧
      MemoryTable.InUse memreg.memreg slot := by
  rcases MemoryTable.addLocal_ok registers with ⟨number, record, register, stored, rfl, same⟩
  rcases MemoryRegister.add_cases stored with ⟨dealt, dealer, _⟩
  have isNumber : (⟨toLocal number, mem, size, true⟩ : Registration).number = number := by
    show (2 * number + 1) / 2 = number
    omega
  refine ⟨?_, ?_⟩
  · exact
      { rooms := (MemoryTable.rooms_addLocal registers).1.trans sorts.rooms
        wellFormed := by
          simp only [Caller.withNode, Caller.withQueue, Caller.queue, same]
          exact ⟨sorts.wellFormed.localRegister.add stored, sorts.wellFormed.globalRegister⟩
        locals := by
          simp only [Caller.withNode, Caller.withQueue, Caller.queue, same, dealer]
          exact sorts.locals.deal rfl (isNumber.trans dealt)
        globals := by
          simp only [Caller.withNode, Caller.withQueue, Caller.queue, same]
          exact sorts.globals
        odd := by
          intro registration member
          rcases List.mem_append.mp member with old | new
          · exact sorts.odd registration old
          · rw [List.mem_singleton.mp new, isNumber]
        even := sorts.even
        started := Or.inl started
        room := sorts.room
        prefixed := sorts.prefixed
        memslots := sorts.memslots }
  · rw [MemoryTable.inUse_toLocal, same, dealer]
    exact (sorts.wellFormed.localRegister.dealer.live_deal number).mpr (Or.inr dealt)

/-- The global register has dealt a slot. -/
theorem addGlobal (sorts : Sorts capacity sorted) (started : 1 < capacity) {memreg : MemoryTable}
    {mem size slot : ℕ}
    (registers : sorted.caller.queue.memreg.addGlobal mem size = some (memreg, slot)) :
    Sorts capacity { sorted with
      caller := sorted.caller.withNode ⟨memreg, sorted.caller.queue.ibverbs,
        sorted.caller.locals, sorted.caller.globals ++ [⟨slot, mem, size, true⟩]⟩ } ∧
      MemoryTable.InUse memreg.memreg slot := by
  rcases MemoryTable.addGlobal_some registers with ⟨number, record, register, stored, rfl, same⟩
  rcases MemoryRegister.add_cases stored with ⟨dealt, dealer, _⟩
  have isNumber : (⟨toGlobal number, mem, size, true⟩ : Registration).number = number := by
    show 2 * number / 2 = number
    omega
  refine ⟨?_, ?_⟩
  · exact
      { rooms := (MemoryTable.rooms_addGlobal _ registers).trans sorts.rooms
        wellFormed := by
          simp only [Caller.withNode, Caller.withQueue, Caller.queue, same]
          exact ⟨sorts.wellFormed.localRegister, sorts.wellFormed.globalRegister.add stored⟩
        locals := by
          simp only [Caller.withNode, Caller.withQueue, Caller.queue, same]
          exact sorts.locals
        globals := by
          simp only [Caller.withNode, Caller.withQueue, Caller.queue, same, dealer]
          exact sorts.globals.deal rfl (isNumber.trans dealt)
        odd := sorts.odd
        even := by
          intro registration member
          rcases List.mem_append.mp member with old | new
          · exact sorts.even registration old
          · rw [List.mem_singleton.mp new, isNumber]
        started := Or.inl started
        room := sorts.room
        prefixed := sorts.prefixed
        memslots := sorts.memslots }
  · rw [MemoryTable.inUse_toGlobal, same, dealer]
    exact (sorts.wellFormed.globalRegister.dealer.live_deal number).mpr (Or.inr dealt)

theorem registerLocal (sorts : Sorts capacity sorted) {mem size : ℕ}
    (sortable : (Request.registerLocal mem size).Sortable capacity) :
    Option.Rel (Alike capacity) (sorted.make pid (.registerLocal mem size))
      (sorted.caller.make pid (.registerLocal mem size)) := by
  simp only [SortedCaller.make, SortedQueue.addLocalReg, SortedCaller.queue, Caller.make,
    Caller.register, Node.step, Caller.node]
  cases registers : sorted.caller.queue.memreg.addLocal pid sorted.caller.queue.ibverbs mem
    size with
  | none => exact .none
  | some outcome =>
      rcases outcome with ⟨⟨memreg, ibverbs⟩, exn | slot⟩
      · exact .none
      · rcases sorts.addLocal sortable.1 registers with ⟨registered, inUse⟩
        by_cases nonempty : size > 0
        · rcases registered.addRegister inUse nonempty sortable.2 with ⟨msgsort, adds, sorts⟩
          simp only [if_pos nonempty, adds, Option.map_some]
          exact .some ⟨rfl, sorts⟩
        · simp only [if_neg nonempty, Option.map_some]
          exact .some ⟨rfl, registered⟩

theorem registerGlobal (sorts : Sorts capacity sorted) {mem size : ℕ}
    (sortable : (Request.registerGlobal mem size).Sortable capacity) :
    Option.Rel (Alike capacity) (sorted.make pid (.registerGlobal mem size))
      (sorted.caller.make pid (.registerGlobal mem size)) := by
  simp only [SortedCaller.make, SortedQueue.addGlobalReg, SortedCaller.queue, Caller.make,
    Caller.register, Node.step, Caller.node]
  cases registers : sorted.caller.queue.memreg.addGlobal mem size with
  | none => exact .none
  | some outcome =>
      rcases outcome with ⟨memreg, slot⟩
      rcases sorts.addGlobal sortable.1 registers with ⟨registered, inUse⟩
      by_cases nonempty : size > 0
      · rcases registered.addRegister inUse nonempty sortable.2 with ⟨msgsort, adds, sorts⟩
        simp only [if_pos nonempty, adds, Option.map_some]
        exact .some ⟨rfl, sorts⟩
      · simp only [if_neg nonempty, Option.map_some]
        exact .some ⟨rfl, registered⟩

/-- A slot in use can be removed from the message sort. -/
theorem removeReg (sorts : Sorts capacity sorted) {slot : ℕ}
    (inUse : MemoryTable.InUse sorted.caller.queue.memreg.memreg slot) :
    ∃ msgsort, sorted.queue.removeReg slot =
        (sorted.caller.queue.memreg.remove sorted.caller.queue.ibverbs slot).map
          (fun (memreg, ibverbs) =>
            ⟨{ sorted.caller.queue with memreg := memreg, ibverbs := ibverbs }, msgsort⟩) ∧
      Sorts capacity { sorted with msgsort := msgsort } := by
  rcases Option.isSome_iff_exists.mp (MemoryTable.lookup_isSome sorts.wellFormed.globalRegister
    sorts.wellFormed.localRegister inUse) with ⟨memory, found⟩
  simp only [SortedQueue.removeReg, SortedCaller.queue, found]
  by_cases nonempty : memory.size > 0
  · rcases sorts.prefixed.delRegister (sorts.slot_lt inUse) with
      ⟨msgsort, deletes, prefixed, memslots, slotToRegion⟩
    rw [if_pos nonempty, deletes]
    exact ⟨msgsort, rfl, sorts.withMsgsort prefixed memslots slotToRegion⟩
  · rw [if_neg nonempty]
    exact ⟨sorted.msgsort, rfl, sorts⟩

/-- A registration is no longer in the local register. -/
theorem removeLocal (sorts : Sorts capacity sorted) {k : ℕ} {registration : Registration}
    (found : sorted.caller.locals[k]? = some registration) (live : registration.live = true)
    {memreg : MemoryTable} {ibverbs : IBVerbs n}
    (removes : sorted.caller.queue.memreg.remove sorted.caller.queue.ibverbs registration.slot =
      some (memreg, ibverbs)) :
    Sorts capacity { sorted with
      caller := sorted.caller.withNode ⟨memreg, ibverbs,
        sorted.caller.locals.set k registration.close, sorted.caller.globals⟩ } := by
  have member := List.mem_of_getElem? found
  have isLive := sorts.locals.live _ (Holds.mem_liveNumbers member live)
  have slot := sorts.odd registration member
  have removed := MemoryTable.remove_some removes
  rw [slot, CombinedMemoryRegister.removeReg_toLocal] at removed
  rcases Option.map_eq_some_iff.mp removed with ⟨register, taken, same⟩
  have used : MemoryTable.InUse sorted.caller.queue.memreg.memreg registration.slot := by
    rw [slot, MemoryTable.inUse_toLocal]
    exact isLive
  exact
    { rooms := (MemoryTable.rooms_remove removes).1.trans sorts.rooms
      wellFormed := by
        simp only [Caller.withNode, Caller.withQueue, Caller.queue, ← same]
        exact ⟨sorts.wellFormed.localRegister.remove isLive taken,
          sorts.wellFormed.globalRegister⟩
      locals := by
        simp only [Caller.withNode, Caller.withQueue, Caller.queue, ← same,
          (MemoryRegister.remove_cases taken).1]
        exact sorts.locals.recycle found live
      globals := by
        simp only [Caller.withNode, Caller.withQueue, Caller.queue, ← same]
        exact sorts.globals
      odd := by
        intro other isOther
        rcases List.mem_or_eq_of_mem_set isOther with old | rfl
        · exact sorts.odd other old
        · exact slot
      even := sorts.even
      started := Or.inl (sorts.started.resolve_right fun unused => unused _ used)
      room := sorts.room
      prefixed := sorts.prefixed
      memslots := sorts.memslots }

/-- A registration is no longer in the global register. -/
theorem removeGlobal (sorts : Sorts capacity sorted) {k : ℕ} {registration : Registration}
    (found : sorted.caller.globals[k]? = some registration) (live : registration.live = true)
    {memreg : MemoryTable} {ibverbs : IBVerbs n}
    (removes : sorted.caller.queue.memreg.remove sorted.caller.queue.ibverbs registration.slot =
      some (memreg, ibverbs)) :
    Sorts capacity { sorted with
      caller := sorted.caller.withNode ⟨memreg, ibverbs, sorted.caller.locals,
        sorted.caller.globals.set k registration.close⟩ } := by
  have member := List.mem_of_getElem? found
  have isLive := sorts.globals.live _ (Holds.mem_liveNumbers member live)
  have slot := sorts.even registration member
  have removed := MemoryTable.remove_some removes
  rw [slot, CombinedMemoryRegister.removeReg_toGlobal] at removed
  rcases Option.map_eq_some_iff.mp removed with ⟨register, taken, same⟩
  have used : MemoryTable.InUse sorted.caller.queue.memreg.memreg registration.slot := by
    rw [slot, MemoryTable.inUse_toGlobal]
    exact isLive
  exact
    { rooms := (MemoryTable.rooms_remove removes).1.trans sorts.rooms
      wellFormed := by
        simp only [Caller.withNode, Caller.withQueue, Caller.queue, ← same]
        exact ⟨sorts.wellFormed.localRegister,
          sorts.wellFormed.globalRegister.remove isLive taken⟩
      locals := by
        simp only [Caller.withNode, Caller.withQueue, Caller.queue, ← same]
        exact sorts.locals
      globals := by
        simp only [Caller.withNode, Caller.withQueue, Caller.queue, ← same,
          (MemoryRegister.remove_cases taken).1]
        exact sorts.globals.recycle found live
      odd := sorts.odd
      even := by
        intro other isOther
        rcases List.mem_or_eq_of_mem_set isOther with old | rfl
        · exact sorts.even other old
        · exact slot
      started := Or.inl (sorts.started.resolve_right fun unused => unused _ used)
      room := sorts.room
      prefixed := sorts.prefixed
      memslots := sorts.memslots }

theorem deregisterLocal (sorts : Sorts capacity sorted) (k : ℕ) :
    Option.Rel (Alike capacity) (sorted.make pid (.deregisterLocal k))
      (sorted.caller.make pid (.deregisterLocal k)) := by
  simp only [SortedCaller.make, SortedCaller.deregister, Caller.make, Caller.register, Node.step,
    Node.deregister, Caller.node]
  cases found : sorted.caller.locals[k]? with
  | none => exact .none
  | some registration =>
      by_cases live : registration.live = true
      · have member := List.mem_of_getElem? found
        have inUse : MemoryTable.InUse sorted.caller.queue.memreg.memreg registration.slot := by
          rw [sorts.odd registration member, MemoryTable.inUse_toLocal]
          exact sorts.locals.live _ (Holds.mem_liveNumbers member live)
        rcases sorts.removeReg inUse with ⟨msgsort, removal, sorts⟩
        simp only [if_pos live, removal]
        cases removes : sorted.caller.queue.memreg.remove sorted.caller.queue.ibverbs
            registration.slot with
        | none => exact .none
        | some outcome => exact .some ⟨rfl, sorts.removeLocal found live removes⟩
      · simp only [if_neg live]
        exact .none

theorem deregisterGlobal (sorts : Sorts capacity sorted) (k : ℕ) :
    Option.Rel (Alike capacity) (sorted.make pid (.deregisterGlobal k))
      (sorted.caller.make pid (.deregisterGlobal k)) := by
  simp only [SortedCaller.make, SortedCaller.deregister, Caller.make, Caller.register, Node.step,
    Node.deregister, Caller.node]
  cases found : sorted.caller.globals[k]? with
  | none => exact .none
  | some registration =>
      by_cases live : registration.live = true
      · have member := List.mem_of_getElem? found
        have inUse : MemoryTable.InUse sorted.caller.queue.memreg.memreg registration.slot := by
          rw [sorts.even registration member, MemoryTable.inUse_toGlobal]
          exact sorts.globals.live _ (Holds.mem_liveNumbers member live)
        rcases sorts.removeReg inUse with ⟨msgsort, removal, sorts⟩
        simp only [if_pos live, removal]
        cases removes : sorted.caller.queue.memreg.remove sorted.caller.queue.ibverbs
            registration.slot with
        | none => exact .none
        | some outcome => exact .some ⟨rfl, sorts.removeGlobal found live removes⟩
      · simp only [if_neg live]
        exact .none

/-- Changes that the registers of the memory table are not concerned with. -/
theorem of_queue (sorts : Sorts capacity sorted) {queue : MessageQueue n}
    (memreg : queue.memreg = sorted.caller.queue.memreg)
    (verbs : queue.ibverbs.memreg = sorted.caller.queue.ibverbs.memreg) :
    Sorts capacity { sorted with caller := sorted.caller.withQueue queue } := by
  have rooms := sorts.rooms
  rw [MemoryTable.rooms, ← memreg, ← verbs] at rooms
  exact
    { rooms := rooms
      wellFormed := memreg.symm ▸ sorts.wellFormed
      locals := memreg.symm ▸ sorts.locals
      globals := memreg.symm ▸ sorts.globals
      odd := sorts.odd
      even := sorts.even
      started := memreg.symm ▸ sorts.started
      room := sorts.room
      prefixed := sorts.prefixed
      memslots := sorts.memslots }

theorem resizeMesgQueue (sorts : Sorts capacity sorted) (nMsgs : ℕ) :
    Option.Rel (Alike capacity) (sorted.make pid (.resizeMesgQueue nMsgs))
      (sorted.caller.make pid (.resizeMesgQueue nMsgs)) := by
  rcases sorted.queue.resizeMesgQueue_keeps nMsgs with ⟨_, memreg, verbs, _⟩
  simp only [SortedCaller.make, SortedQueue.resizeMesgQueue, SortedCaller.queue, Caller.make,
    Caller.resize, MessageQueue.resize] at memreg verbs ⊢
  generalize sorted.caller.queue.resizeMesgQueue nMsgs = outcome at memreg verbs ⊢
  rcases outcome with ⟨queue, _ | _ | _ | _⟩
  · exact .none
  · exact .some ⟨rfl, sorts.of_queue memreg verbs⟩
  · exact .none
  · exact .none

/-- The memory register and the message sort have grown. -/
theorem reserve (sorts : Sorts capacity sorted) {size : ℕ} (grows : capacity < size)
    {memreg : MemoryTable} {ibverbs : IBVerbs n}
    (reserves : sorted.caller.queue.memreg.reserve .none sorted.caller.queue.ibverbs size =
      ((memreg, ibverbs), none)) :
    (sorted.msgsort.setSlotRange .none memreg.range).2 = none ∧
      Sorts size ⟨sorted.caller.withQueue
          { sorted.caller.queue with memreg := memreg, ibverbs := ibverbs },
        (sorted.msgsort.setSlotRange .none memreg.range).1⟩ := by
  have same := SameDealers.reserve .none sorted.caller.queue.memreg sorted.caller.queue.ibverbs
    size
  have granted : ¬MemoryTable.Faults.none.tableGlobal.Refuses := by
    simp [MemoryTable.Faults.none, ReserveFaults.none, ReserveFaults.Refuses]
  have full := (MemoryTable.reserve_granted granted sorts.rooms grows).2.2
  rw [reserves] at same full
  have rooms := full rfl
  have range : memreg.range = 2 * size + 1 := by
    have sizes := rooms
    simp only [MemoryTable.rooms, Rooms.full, Rooms.mk.injEq] at sizes
    simp only [MemoryTable.range, CombinedMemoryRegister.range, sizes.2.1, sizes.2.2.1]
    omega
  rw [range]
  have wider : sorted.msgsort.memslots.length ≤ 2 * size + 1 := by
    have := sorts.memslots
    omega
  rcases sorts.prefixed.setSlotRange wider .none with ⟨prefixed, memslots, _, slotToRegion⟩
  refine ⟨rfl, ?_⟩
  exact
    { rooms := rooms
      wellFormed := same.wellFormed sorts.wellFormed
      locals := same.locals.symm ▸ sorts.locals
      globals := same.globals.symm ▸ sorts.globals
      odd := sorts.odd
      even := sorts.even
      started := by
        rcases sorts.started with started | unused
        · exact Or.inl (started.trans grows)
        · exact Or.inr fun slot inUse => unused slot ((same.inUse slot).mp inUse)
      room := fun _ => by
        rw [slotToRegion rfl]
        exact Nat.le_succ _
      prefixed := prefixed
      memslots := memslots }

/-- Enough slots have been reserved, if that has succeeded. -/
theorem reserveMemreg (sorts : Sorts capacity sorted) (nRegs : ℕ)
    (granted : (sorted.queue.reserveMemreg ⟨.none, .none⟩ (nRegs + 1)).2 = none) :
    Sorts (max capacity (nRegs + 1))
      (sorted.withQueue (sorted.queue.reserveMemreg ⟨.none, .none⟩ (nRegs + 1)).1) := by
  have size : sorted.queue.queue.memreg.capacity = capacity := sorts.sizes.1
  by_cases grows : capacity < nRegs + 1
  · have larger : sorted.queue.queue.memreg.capacity < nRegs + 1 := size.symm ▸ grows
    simp only [SortedQueue.reserveMemreg, if_pos larger] at granted ⊢
    generalize reserves : sorted.queue.queue.memreg.reserve .none sorted.queue.queue.ibverbs
      (nRegs + 1) = outcome at granted ⊢
    rcases outcome with ⟨⟨memreg, ibverbs⟩, _ | exn⟩
    · rw [max_eq_right grows.le]
      exact (sorts.reserve grows reserves).2
    · cases granted
  · have enough : ¬sorted.queue.queue.memreg.capacity < nRegs + 1 := size.symm ▸ grows
    simp only [SortedQueue.reserveMemreg, if_neg enough]
    rw [max_eq_left (Nat.not_lt.mp grows)]
    exact sorts

/-- So they have after a resize that succeeds. -/
theorem of_resizeMemreg (sorts : Sorts capacity sorted) (nRegs : ℕ)
    (succeeds : (sorted.queue.resizeMemreg ⟨.none, .none⟩ nRegs).2 = some .success) :
    Sorts (max capacity (nRegs + 1))
      (sorted.withQueue (sorted.queue.resizeMemreg ⟨.none, .none⟩ nRegs).1) := by
  have reserved := sorts.reserveMemreg nRegs
  simp only [SortedQueue.resizeMemreg] at succeeds ⊢
  split at succeeds
  next => cases succeeds
  next fits =>
    rw [if_neg fits]
    generalize sorted.queue.reserveMemreg ⟨.none, .none⟩ (nRegs + 1) = outcome
      at reserved succeeds ⊢
    rcases outcome with ⟨queue, _ | exn⟩
    · rcases queue.resizeMesgQueue_keeps queue.queue.maxNMsgs with ⟨msgsort, memreg, verbs, _⟩
      simp only at succeeds ⊢
      generalize queue.resizeMesgQueue queue.queue.maxNMsgs = resized
        at msgsort memreg verbs succeeds ⊢
      rcases resized with ⟨⟨after, _⟩, _ | _ | _ | _⟩
      · cases succeeds
      · subst msgsort
        let next : MessageQueue n := { after with nextMemRegSize := nRegs + 1 }
        have sameMemreg : next.memreg = queue.queue.memreg := memreg
        exact (reserved rfl).of_queue sameMemreg verbs
      · cases succeeds
      · cases succeeds
    · cases exn <;> cases succeeds

theorem resizeMemreg (sorts : Sorts capacity sorted) (nRegs : ℕ) :
    Option.Rel (Alike (max capacity (nRegs + 1))) (sorted.make pid (.resizeMemreg nRegs))
      (sorted.caller.make pid (.resizeMemreg nRegs)) := by
  rcases SortedQueue.resizeMemreg_queue ⟨.none, .none⟩ sorted.queue nRegs with
    ⟨slotRange, none, same⟩
  have resized := sorts.of_resizeMemreg nRegs
  rw [none rfl] at same
  simp only [Caller.make, Caller.resize, MessageQueue.resize, SortedCaller.make]
  rw [show sorted.caller.queue.resizeMemreg .none .none nRegs = _ from same]
  generalize sorted.queue.resizeMemreg ⟨.none, .none⟩ nRegs = outcome at resized ⊢
  rcases outcome with ⟨queue, _ | _ | _ | _⟩
  · exact .none
  · exact .some ⟨rfl, resized rfl⟩
  · exact .none
  · exact .none

/-- Every request that the contract admits succeeds or fails as without the message sort. -/
theorem make (sorts : Sorts capacity sorted) {request : Request}
    (sortable : request.Sortable capacity) :
    Option.Rel (Alike (request.raise capacity)) (sorted.make pid request)
      (sorted.caller.make pid request) := by
  cases request with
  | registerLocal mem size => exact sorts.registerLocal sortable
  | deregisterLocal k => exact sorts.deregisterLocal k
  | registerGlobal mem size => exact sorts.registerGlobal sortable
  | deregisterGlobal k => exact sorts.deregisterGlobal k
  | resizeMesgQueue nMsgs => exact sorts.resizeMesgQueue nMsgs
  | resizeMemreg nRegs => exact sorts.resizeMemreg nRegs

theorem makeAll {maxMr : ℕ} {ledger final : Ledger} {requests : List Request}
    (sorts : Sorts ledger.capacity sorted)
    (admitted : requests.foldlM (Request.allow maxMr) ledger = some final) :
    Option.Rel (Alike final.capacity) (sorted.makeAll pid requests)
      (sorted.caller.makeAll pid requests) := by
  induction requests generalizing ledger sorted with
  | nil =>
      cases admitted
      exact .some ⟨rfl, sorts⟩
  | cons request requests ih =>
      rw [List.foldlM_cons] at admitted
      rcases Option.bind_eq_some_iff.mp admitted with ⟨middle, first, rest⟩
      rcases Option.ite_none_right_eq_some.mp first with ⟨sortable, accepted⟩
      have made : Option.Rel _ (sorted.make pid request) _ := sorts.make sortable
      rw [← Request.capacity_accept accepted] at made
      simp only [SortedCaller.makeAll, Caller.makeAll, List.foldlM_cons]
      generalize sorted.make pid request = left at made ⊢
      generalize sorted.caller.make pid request = right at made ⊢
      cases made with
      | none => exact .none
      | some alike =>
          rcases alike with ⟨rfl, sorts⟩
          exact ih sorts rest

end Sorts

/-- The registers of a message queue deal the same slots and have the same size. -/
structure MessageQueue.SameSlots (before after : MessageQueue n) : Prop where
  dealers : SameDealers before.memreg after.memreg
  rooms : MemoryTable.rooms after.memreg after.ibverbs =
    MemoryTable.rooms before.memreg before.ibverbs

namespace MessageQueue.SameSlots

theorem sync {pid : Fin n} {task : Task} {abort : Bool} {attr : SyncAttr}
    {before after : MessageQueue n} {answers : List (machine n).Answer} {result : Except Exn Int}
    (follows : Follows (before.sync pid task abort attr) answers (after, result)) :
    before.SameSlots after := by
  rcases SortedQueue.sync_cases follows with ⟨_, _, _, ibverbs, _, registering, _, framed⟩
  refine ⟨.sync registering, ?_⟩
  rw [← (MemoryTable.rooms_sync registering).1, MemoryTable.rooms, framed.sameMemreg]
  rfl

theorem completeRequest (queue : MessageQueue n) :
    queue.completeRequest.Ensures queue.SameSlots := by
  have same : queue.ibverbs.completeRequest.Ensures fun after =>
      after.memreg = queue.ibverbs.memreg := by
    unfold IBVerbs.completeRequest
    split
    next =>
      split
      next => exact fun _ => rfl
      next => rfl
    next => rfl
  refine same.bind fun ibverbs sameMemreg => ⟨.refl _, ?_⟩
  rw [MemoryTable.rooms, sameMemreg]
  rfl

theorem completeRequest_runtime (runtime : Interface n) :
    runtime.completeRequest.Ensures fun after =>
      runtime.mesgQueue.SameSlots after.mesgQueue :=
  (completeRequest runtime.mesgQueue).bind fun _ same => same

/-- So a sync leaves them, whether it succeeds or not. -/
theorem sync_runtime (pid : Fin n) (task : Task) (runtime : Interface n) (attr : SyncAttr) :
    (runtime.sync pid task attr).Ensures fun outcome =>
      runtime.mesgQueue.SameSlots outcome.1.mesgQueue := by
  unfold Interface.sync
  split
  next =>
    have synced : (runtime.mesgQueue.sync pid task false attr).Ensures fun outcome =>
        runtime.mesgQueue.SameSlots outcome.1 := .of_follows fun _ _ follows => sync follows
    apply synced.bind
    rintro ⟨mesgQueue, voted⟩ same
    cases voted with
    | ok aborted => exact same
    | error exn => exact same
  next => exact ⟨.refl _, rfl⟩

end MessageQueue.SameSlots

/-- The registrations of a process stay as they are in a sync. -/
theorem Sorts.of_sameSlots {capacity : ℕ} {sorted : SortedCaller n}
    (sorts : Sorts capacity sorted) {runtime : Interface n}
    (same : sorted.caller.queue.SameSlots runtime.mesgQueue) :
    Sorts capacity { sorted with caller := { sorted.caller with runtime := runtime } } where
  rooms := same.rooms.trans sorts.rooms
  wellFormed := same.dealers.wellFormed sorts.wellFormed
  locals := same.dealers.locals.symm ▸ sorts.locals
  globals := same.dealers.globals.symm ▸ sorts.globals
  odd := sorts.odd
  even := sorts.even
  started := sorts.started.imp_right fun unused slot inUse =>
    unused slot ((same.dealers.inUse slot).mp inUse)
  room := sorts.room
  prefixed := sorts.prefixed
  memslots := sorts.memslots

/-- An SPMD function whose registrations the contract admits runs as without message sort. -/
theorem SortedCaller.run_eq {pid : Fin n} (task : Task) {maxMr : ℕ} {ledger final : Ledger}
    {supersteps : List (List Request)} {last : List Request} {sorted : SortedCaller n}
    (codes : List Err) (sorts : Sorts ledger.capacity sorted)
    (admitted : (supersteps.flatten ++ last).foldlM (Request.allow maxMr) ledger = some final) :
    sorted.run pid task last supersteps codes =
      sorted.caller.run pid task last supersteps codes := by
  induction supersteps generalizing ledger sorted codes with
  | nil =>
      rw [List.flatten_nil, List.nil_append] at admitted
      have made : Option.Rel _ (sorted.makeAll pid last) _ := sorts.makeAll admitted
      simp only [run, Caller.run]
      generalize sorted.makeAll pid last = left at made ⊢
      generalize sorted.caller.makeAll pid last = right at made ⊢
      cases made with
      | none => rfl
      | some alike =>
          rcases alike with ⟨rfl, _⟩
          rfl
  | cons requests supersteps ih =>
      rw [List.flatten_cons, List.append_assoc, List.foldlM_append] at admitted
      rcases Option.bind_eq_some_iff.mp admitted with ⟨middle, first, rest⟩
      have made : Option.Rel _ (sorted.makeAll pid requests) _ := sorts.makeAll first
      simp only [run, Caller.run]
      generalize sorted.makeAll pid requests = left at made ⊢
      generalize sorted.caller.makeAll pid requests = right at made ⊢
      cases made with
      | none => rfl
      | @some after _ alike =>
          rcases alike with ⟨rfl, sorts⟩
          simp only
          apply (MessageQueue.SameSlots.sync_runtime pid task after.caller.runtime
            .default).bind_congr
          rintro ⟨runtime, result⟩ same
          cases result with
          | error exn => rfl
          | ok code =>
              apply (MessageQueue.SameSlots.completeRequest_runtime runtime).bind_congr
              intro completed completes
              exact ih _ ((sorts.of_sameSlots same).of_sameSlots completes) rest

/-- What the constructors leave behind. -/
theorem Sorts.initial {device : Device n}
    (constructs : (MemoryTable.initial.reserve .none (IBVerbs.initial device) 1).2 = none)
    (msgGrainPower : ℕ) :
    Sorts 1 ⟨Process.begin device, .initial msgGrainPower⟩ := by
  have same := SameDealers.reserve .none MemoryTable.initial (IBVerbs.initial device) 1
  have unused : ∀ slot, ¬MemoryTable.InUse (Process.begin device).queue.memreg.memreg slot := by
    intro slot inUse
    have before := (same.inUse slot).mp inUse
    rw [MemoryTable.InUse] at before
    split at before
    next => exact absurd before.1 (Nat.not_lt_zero _)
    next => exact absurd before.1 (Nat.not_lt_zero _)
  exact
    { rooms := MemoryTable.rooms_initial constructs
      wellFormed := same.wellFormed CombinedMemoryRegister.wellFormed_empty
      locals := same.locals.symm ▸ Holds.initial
      globals := same.globals.symm ▸ Holds.initial
      odd := fun _ member => by cases member
      even := fun _ member => by cases member
      started := Or.inr unused
      room := fun started => absurd started (Nat.lt_irrefl 1)
      prefixed := MessageSort.prefixed_initial msgGrainPower
      memslots := Nat.zero_le _ }

namespace Process

variable {α : Type}

/-- What an SPMD function does in the context that the hook sets up is all that matters. -/
theorem hook_congr (pid : Fin n) (task : Task) (memRange : ℕ) (device : Device n)
    {left right : Interface n → Comm n (Interface n × Except Exn α)}
    (same : left ⟨.initial device, 0⟩ = right ⟨.initial device, 0⟩) :
    hook pid task memRange device false left = hook pid task memRange device false right := by
  have created : (Interface.create memRange device false).Ensures fun created =>
      ∀ runtime, created = some runtime → runtime = ⟨.initial device, 0⟩ := by
    intro _ failed
    simp only
    split
    next => exact fun _ _ created => by cases created
    next => exact fun _ created => (Option.some.inj created).symm
  apply created.bind_congr
  intro created isInitial
  cases created with
  | none => rfl
  | some runtime =>
      rw [isInitial runtime rfl]
      simp only [same]

/-- Run a script under the hook, with a message sort beside the message queue. -/
def hookSorted (pid : Fin n) (task : Task) (memRange msgGrainPower : ℕ) (device : Device n)
    (script : Script) : Comm n (Except Exn Err × Option (List Err)) :=
  hook pid task memRange device false fun runtime =>
    SortedCaller.run pid task script.last script.supersteps
      ⟨⟨runtime, [], []⟩, .initial msgGrainPower⟩ []

/-- The message sort makes no difference to a script whose registrations the contract admits. -/
theorem hookSorted_eq (pid : Fin n) (task : Task) (memRange msgGrainPower : ℕ)
    {device : Device n} {script : Script} {final : Ledger}
    (constructs : (MemoryTable.initial.reserve .none (IBVerbs.initial device) 1).2 = none)
    (admitted : (script.supersteps.flatten ++ script.last).foldlM (Request.allow device.maxMr)
      ⟨1, [], []⟩ = some final) :
    hookSorted pid task memRange msgGrainPower device script =
      hookScript pid task memRange device script :=
  hook_congr pid task memRange device
    (SortedCaller.run_eq task [] (Sorts.initial constructs msgGrainPower) admitted)

end Process

end Talpf
