import Talpf.IBVerbs.Frames
import Talpf.MemoryTable.Rooms
import Talpf.MessageQueue.Resizes
import Talpf.MessageSort

/-!
# The message queue with its message sort

`MessageQueue` registers every memory area with its message sort as well, and
one call that resizes the memory register grows the tables of three classes one
after the other.  Here a message queue has its message sort at its side.
-/

namespace Talpf

open Spmd

structure SortedQueue (n : ℕ) where
  queue : MessageQueue n
  msgsort : MessageSort

namespace SortedQueue

variable {n : ℕ}

/-- What the constructor leaves behind; it does not set the slot range of the message sort. -/
def initial (device : Device n) (msgGrainPower : ℕ) : SortedQueue n :=
  ⟨.initial device, .initial msgGrainPower⟩

/-- Which allocations of a resize throw. -/
structure Faults where
  memreg : MemoryTable.Faults
  msgsort : MessageSort.SlotRangeFaults
deriving DecidableEq, Repr

def resizeMesgQueue (state : SortedQueue n) (nMsgs : ℕ) : SortedQueue n × Option Err :=
  let (queue, code) := state.queue.resizeMesgQueue nMsgs
  ({ state with queue := queue }, code)

/-- The part of `resizeMemreg` that may throw. -/
def reserveMemreg (faults : Faults) (state : SortedQueue n) (size : ℕ) :
    SortedQueue n × Option Exn :=
  if state.queue.memreg.capacity < size then
    match state.queue.memreg.reserve faults.memreg state.queue.ibverbs size with
    | ((memreg, ibverbs), some exn) =>
        ({ state with queue := { state.queue with memreg := memreg, ibverbs := ibverbs } },
          some exn)
    | ((memreg, ibverbs), none) =>
        let (msgsort, thrown) := state.msgsort.setSlotRange faults.msgsort memreg.range
        (⟨{ state.queue with memreg := memreg, ibverbs := ibverbs }, msgsort⟩, thrown)
  else (state, none)

def resizeMemreg (faults : Faults) (state : SortedQueue n) (nRegs : ℕ) :
    SortedQueue n × Option Err :=
  if nRegs > 2 ^ 64 - 2 then (state, some .outOfMemory)
  else
    match state.reserveMemreg faults (nRegs + 1) with
    | (state, some exn) => (state, MessageQueue.errorCode (some exn))
    | (state, none) =>
        match state.resizeMesgQueue state.queue.maxNMsgs with
        | (state, some .success) =>
            ({ state with queue := { state.queue with nextMemRegSize := nRegs + 1 } },
              some .success)
        | (state, some _) => (state, some .outOfMemory)
        | (state, none) => (state, none)

/-- Register a memory area for this process.  `none` is a failed assertion or an access beyond an
array. -/
def addLocalReg (pid : Fin n) (state : SortedQueue n) (mem size : ℕ) :
    Option (SortedQueue n × Except Exn ℕ) :=
  match state.queue.memreg.addLocal pid state.queue.ibverbs mem size with
  | none => none
  | some ((memreg, ibverbs), .error exn) =>
      some ({ state with queue := { state.queue with memreg := memreg, ibverbs := ibverbs } },
        .error exn)
  | some ((memreg, ibverbs), .ok slot) =>
      let queue := { state.queue with memreg := memreg, ibverbs := ibverbs }
      if size > 0 then
        (state.msgsort.addRegister slot mem size).map fun msgsort => (⟨queue, msgsort⟩, .ok slot)
      else some (⟨queue, state.msgsort⟩, .ok slot)

/-- Register a memory area on all processes, at the next sync. -/
def addGlobalReg (state : SortedQueue n) (mem size : ℕ) : Option (SortedQueue n × ℕ) :=
  match state.queue.memreg.addGlobal mem size with
  | none => none
  | some (memreg, slot) =>
      let queue := { state.queue with memreg := memreg }
      if size > 0 then
        (state.msgsort.addRegister slot mem size).map fun msgsort => (⟨queue, msgsort⟩, slot)
      else some (⟨queue, state.msgsort⟩, slot)

def removeReg (state : SortedQueue n) (slot : ℕ) : Option (SortedQueue n) :=
  match state.queue.memreg.memreg.lookup slot with
  | none => none
  | some memory =>
      match if memory.size > 0 then state.msgsort.delRegister slot else some state.msgsort with
      | none => none
      | some msgsort =>
          (state.queue.memreg.remove state.queue.ibverbs slot).map fun (memreg, ibverbs) =>
            ⟨{ state.queue with memreg := memreg, ibverbs := ibverbs }, msgsort⟩

/-- The calls that resize a buffer, with the failures that they meet. -/
inductive Resize where
  | mesgQueue (nMsgs : ℕ)
  | memreg (faults : Faults) (nRegs : ℕ)
deriving DecidableEq, Repr

def resize (state : SortedQueue n) : Resize → SortedQueue n × Option Err
  | .mesgQueue nMsgs => state.resizeMesgQueue nMsgs
  | .memreg faults nRegs => state.resizeMemreg faults nRegs

/-- `lpf_resize_message_queue` and `lpf_resize_memory_register`, in a context that may have
aborted. -/
def lpfResize (aborted : Bool) (state : SortedQueue n) (call : Resize) :
    SortedQueue n × Option Err :=
  if aborted then (state, some .success) else state.resize call

/-- Operations are posted, and the polling task makes progress. -/
inductive Progress : IBVerbs n → IBVerbs n → Prop where
  | operation (verbs : IBVerbs n) (peer : Fin n) : Progress verbs (verbs.countOperation peer)
  | localProgress (verbs : IBVerbs n) (completions : ℕ) :
      Progress verbs (verbs.doLocalProgress completions)
  | remoteProgress (verbs : IBVerbs n) (immData : List (BitVec 32)) :
      Progress verbs (verbs.doRemoteProgress immData)
  | barrier {verbs after : IBVerbs n} {flag : Bool} :
      verbs.processSyncRequest flag = .barrier after → Progress verbs after
  | complete {verbs after : IBVerbs n} {flag : Bool} {task : Option Task} :
      verbs.processSyncRequest flag = .complete after task → Progress verbs after

/-- What a process does. -/
inductive Call (n : ℕ) where
  | resize (aborted : Bool) (call : Resize)
  | addLocalReg (mem size : ℕ)
  | addGlobalReg (mem size : ℕ)
  | removeReg (slot : ℕ)
  /-- A sync in which the collectives return the given answers. -/
  | sync (task : Task) (abort : Bool) (attr : SyncAttr) (answers : List (machine n).Answer)
  | progress

/-- A call of a process, which may throw but does not fail an assertion. -/
def Step (pid : Fin n) (before : SortedQueue n) (call : Call n) (after : SortedQueue n) : Prop :=
  match call with
  | .resize aborted call => (before.lpfResize aborted call).1 = after
  | .addLocalReg mem size => ∃ result, before.addLocalReg pid mem size = some (after, result)
  | .addGlobalReg mem size => ∃ slot, before.addGlobalReg mem size = some (after, slot)
  | .removeReg slot => before.removeReg slot = some after
  | .sync task abort attr answers => after.msgsort = before.msgsort ∧ ∃ result,
      Follows (before.queue.sync pid task abort attr) answers (after.queue, result)
  | .progress => ∃ ibverbs, Progress before.queue.ibverbs ibverbs ∧
      after = { before with queue := { before.queue with ibverbs := ibverbs } }

theorem reserveMemreg_queue (faults : Faults) (state : SortedQueue n) (size : ℕ) :
    ∃ slotRange, (faults.msgsort = .none → slotRange = none) ∧
      state.queue.reserveMemreg faults.memreg slotRange size =
        (((state.reserveMemreg faults size).1.queue.memreg,
          (state.reserveMemreg faults size).1.queue.ibverbs), (state.reserveMemreg faults size).2) ∧
      (state.reserveMemreg faults size).1.queue = { state.queue with
        memreg := (state.reserveMemreg faults size).1.queue.memreg
        ibverbs := (state.reserveMemreg faults size).1.queue.ibverbs } := by
  simp only [reserveMemreg, MessageQueue.reserveMemreg]
  split
  next grows =>
    generalize state.queue.memreg.reserve faults.memreg state.queue.ibverbs size = outcome
    rcases outcome with ⟨⟨memreg, ibverbs⟩, _ | exn⟩
    · refine ⟨(state.msgsort.setSlotRange faults.msgsort memreg.range).2, ?_, rfl, rfl⟩
      intro granted
      rw [granted]
      rfl
    · exact ⟨none, fun _ => rfl, rfl, rfl⟩
  next => exact ⟨none, fun _ => rfl, rfl, rfl⟩

/-- A resize of the memory register does with the message queue what it does without message sort
when the slot range throws the same exception. -/
theorem resizeMemreg_queue (faults : Faults) (state : SortedQueue n) (nRegs : ℕ) :
    ∃ slotRange, (faults.msgsort = .none → slotRange = none) ∧
      state.queue.resizeMemreg faults.memreg slotRange nRegs =
        ((state.resizeMemreg faults nRegs).1.queue, (state.resizeMemreg faults nRegs).2) := by
  rcases reserveMemreg_queue faults state (nRegs + 1) with ⟨slotRange, granted, reserves, same⟩
  refine ⟨slotRange, granted, ?_⟩
  simp only [resizeMemreg, MessageQueue.resizeMemreg, reserves]
  split
  next => rfl
  next =>
    generalize state.reserveMemreg faults (nRegs + 1) = reserved at same ⊢
    rcases reserved with ⟨after, _ | exn⟩
    · simp only at same ⊢
      rw [← same, show state.queue.maxNMsgs = after.queue.maxNMsgs by rw [same], resizeMesgQueue]
      generalize after.queue.resizeMesgQueue after.queue.maxNMsgs = outcome
      rcases outcome with ⟨queue, _ | _ | _ | _⟩ <;> rfl
    · simp only at same ⊢
      rw [← same]

/-- A registration for this process is one in the memory table, and an area that is not empty
is registered with the message sort as well. -/
theorem addLocalReg_cases {pid : Fin n} {state after : SortedQueue n} {mem size : ℕ}
    {result : Except Exn ℕ} (adds : state.addLocalReg pid mem size = some (after, result)) :
    ∃ memreg ibverbs,
      state.queue.memreg.addLocal pid state.queue.ibverbs mem size =
        some ((memreg, ibverbs), result) ∧
      after.queue = { state.queue with memreg := memreg, ibverbs := ibverbs } ∧
      (after.msgsort = state.msgsort ∨ ∃ slot, result = .ok slot ∧ 0 < size ∧
        state.msgsort.addRegister slot mem size = some after.msgsort) := by
  simp only [addLocalReg] at adds
  split at adds
  next => cases adds
  next memreg ibverbs exn registers =>
    cases adds
    exact ⟨memreg, ibverbs, registers, rfl, Or.inl rfl⟩
  next memreg ibverbs slot registers =>
    split at adds
    next positive =>
      rcases Option.map_eq_some_iff.mp adds with ⟨msgsort, sorts, made⟩
      cases made
      exact ⟨memreg, ibverbs, registers, rfl, Or.inr ⟨slot, rfl, positive, sorts⟩⟩
    next =>
      cases adds
      exact ⟨memreg, ibverbs, registers, rfl, Or.inl rfl⟩

theorem addGlobalReg_cases {state after : SortedQueue n} {mem size slot : ℕ}
    (adds : state.addGlobalReg mem size = some (after, slot)) :
    ∃ memreg, state.queue.memreg.addGlobal mem size = some (memreg, slot) ∧
      after.queue = { state.queue with memreg := memreg } ∧
      (after.msgsort = state.msgsort ∨ 0 < size ∧
        state.msgsort.addRegister slot mem size = some after.msgsort) := by
  simp only [addGlobalReg] at adds
  split at adds
  next => cases adds
  next memreg dealt registers =>
    split at adds
    next positive =>
      rcases Option.map_eq_some_iff.mp adds with ⟨msgsort, sorts, made⟩
      cases made
      exact ⟨memreg, registers, rfl, Or.inr ⟨positive, sorts⟩⟩
    next =>
      cases adds
      exact ⟨memreg, registers, rfl, Or.inl rfl⟩

theorem removeReg_cases {state after : SortedQueue n} {slot : ℕ}
    (removes : state.removeReg slot = some after) :
    ∃ memory memreg ibverbs, state.queue.memreg.memreg.lookup slot = some memory ∧
      state.queue.memreg.remove state.queue.ibverbs slot = some (memreg, ibverbs) ∧
      after.queue = { state.queue with memreg := memreg, ibverbs := ibverbs } ∧
      (if memory.size > 0 then state.msgsort.delRegister slot else some state.msgsort) =
        some after.msgsort := by
  simp only [removeReg] at removes
  split at removes
  next => cases removes
  next memory found =>
    split at removes
    next => cases removes
    next msgsort sorts =>
      rcases Option.map_eq_some_iff.mp removes with ⟨⟨memreg, ibverbs⟩, removed, made⟩
      cases made
      exact ⟨memory, memreg, ibverbs, found, removed, rfl, sorts⟩

/-- A sync first registers what is pending and then runs the sync of the verbs layer. -/
theorem sync_cases {pid : Fin n} {task : Task} {abort : Bool} {attr : SyncAttr}
    {queue after : MessageQueue n} {answers : List (machine n).Answer} {result : Except Exn Int}
    (follows : Follows (queue.sync pid task abort attr) answers (after, result)) :
    ∃ pending rest thrown ibverbs, answers = pending ++ rest ∧
      Follows (queue.memreg.sync queue.ibverbs) pending ((after.memreg, ibverbs), thrown) ∧
      after.maxNMsgs = queue.maxNMsgs ∧ ibverbs.Framed after.ibverbs := by
  rcases Follows.bind_iff.mp follows with
    ⟨pending, rest, ⟨⟨memreg, ibverbs⟩, thrown⟩, split, registering, rest⟩
  refine ⟨pending, _, thrown, ibverbs, split, ?_⟩
  cases thrown with
  | some exn =>
      rcases Follows.done_iff.mp rest with ⟨_, made⟩
      cases made
      exact ⟨registering, rfl, ⟨rfl⟩⟩
  | none =>
      rcases Follows.bind_iff.mp rest with ⟨_, _, ⟨synced, voted⟩, _, voting, finished⟩
      have framed := IBVerbs.framed_sync voting
      cases voted with
      | error exn =>
          rcases Follows.done_iff.mp finished with ⟨_, made⟩
          cases made
          exact ⟨registering, rfl, framed⟩
      | ok aborted =>
          simp only at finished
          split at finished
          next =>
            rcases Follows.done_iff.mp finished with ⟨_, made⟩
            cases made
            exact ⟨registering, rfl, framed⟩
          next =>
            rcases Follows.done_iff.mp finished with ⟨_, made⟩
            cases made
            exact ⟨registering, rfl, framed⟩

theorem framed_doRemoteProgress (immData : List (BitVec 32)) (verbs : IBVerbs n) :
    verbs.Framed (verbs.doRemoteProgress immData) := by
  unfold IBVerbs.doRemoteProgress
  induction immData generalizing verbs with
  | nil => exact ⟨rfl⟩
  | cons first immData ih =>
      have counted : verbs.Framed (verbs.countRecv first) := ⟨rfl⟩
      exact counted.trans (ih (verbs.countRecv first))

theorem Progress.framed {before after : IBVerbs n} (progress : Progress before after) :
    before.Framed after := by
  cases progress with
  | operation peer => exact ⟨rfl⟩
  | localProgress completions => exact ⟨rfl⟩
  | remoteProgress immData => exact framed_doRemoteProgress immData before
  | barrier proceeds =>
      cases index : before.syncIndex with
      | none =>
          simp only [IBVerbs.processSyncRequest, index] at proceeds
          split_ifs at proceeds
      | some entry =>
          simp only [IBVerbs.processSyncRequest, index] at proceeds
          split_ifs at proceeds
          cases proceeds
          exact ⟨rfl⟩
  | complete proceeds =>
      cases index : before.syncIndex with
      | none =>
          simp only [IBVerbs.processSyncRequest, index] at proceeds
          split_ifs at proceeds
          cases proceeds
          exact ⟨rfl⟩
      | some entry =>
          simp only [IBVerbs.processSyncRequest, index] at proceeds
          split_ifs at proceeds
          · cases proceeds
            exact ⟨rfl⟩
          · cases proceeds
            exact ⟨rfl⟩

end SortedQueue

end Talpf
