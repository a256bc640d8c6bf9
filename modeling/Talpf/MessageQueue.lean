import Talpf.MemoryTable

/-!
# The message queue

`MessageQueue` joins the memory table and the verbs layer.  Its `sync` first
registers the pending global areas, then votes through the verbs layer on
whether some process aborts and whether some process has resized, and finally
forgets its own resize.  Bookkeeping of overlapping writes plays no part in any
of this and is left out here.
-/

namespace Talpf

/-- The return codes of the interface. -/
inductive Err where
  | success
  | outOfMemory
  | fatal
deriving DecidableEq, Repr

structure MessageQueue (n : ℕ) where
  maxNMsgs : ℕ
  nextMemRegSize : ℕ
  resized : Bool
  ibverbs : IBVerbs n
  memreg : MemoryTable

namespace MessageQueue

open Spmd

variable {n : ℕ}

/-- What the constructor leaves behind; it reserves one slot. -/
def initial (device : Device n) : MessageQueue n :=
  let (reserved, _) := MemoryTable.initial.reserve .none (IBVerbs.initial device) 1
  { maxNMsgs := 0
    nextMemRegSize := 0
    resized := false
    ibverbs := reserved.2
    memreg := reserved.1 }

/-- The return code for a call that may have thrown; `none` lets the exception escape. -/
def errorCode : Option Exn → Option Err
  | none => some .success
  | some .badAlloc | some .lengthError => some .outOfMemory
  | some .exception => none

/-- Resize the message queue.  The size is compared with `2 ^ 63` in double precision, where the
next larger number is `2 ^ 63 + 2 ^ 11`. -/
def resizeMesgQueue (queue : MessageQueue n) (nMsgs : ℕ) : MessageQueue n × Option Err :=
  let maxNMsgs := max queue.maxNMsgs nMsgs
  if nMsgs > 2 ^ 63 + 2 ^ 10 then (queue, some .outOfMemory)
  else
    let queue := { queue with resized := true }
    match queue.ibverbs.resizeMesgq nMsgs with
    | (ibverbs, none) =>
        ({ queue with ibverbs := ibverbs, maxNMsgs := maxNMsgs }, some .success)
    | (ibverbs, some exn) => ({ queue with ibverbs := ibverbs }, errorCode (some exn))

/-- Reserve memory slots unless there are enough of them; `slotRange` is what resizing the tables
of the message sort throws, if anything. -/
def reserveMemreg (faults : MemoryTable.Faults) (slotRange : Option Exn) (queue : MessageQueue n)
    (size : ℕ) : (MemoryTable × IBVerbs n) × Option Exn :=
  if queue.memreg.capacity < size then
    match queue.memreg.reserve faults queue.ibverbs size with
    | (grown, some exn) => (grown, some exn)
    | (grown, none) => (grown, slotRange)
  else ((queue.memreg, queue.ibverbs), none)

/-- Resize the memory register, and the message queue to the size that it has. -/
def resizeMemreg (faults : MemoryTable.Faults) (slotRange : Option Exn) (queue : MessageQueue n)
    (nRegs : ℕ) : MessageQueue n × Option Err :=
  if nRegs > 2 ^ 64 - 2 then (queue, some .outOfMemory)
  else
    let ((memreg, ibverbs), thrown) := queue.reserveMemreg faults slotRange (nRegs + 1)
    let queue := { queue with memreg := memreg, ibverbs := ibverbs }
    match thrown with
    | some exn => (queue, errorCode (some exn))
    | none =>
        match queue.resizeMesgQueue queue.maxNMsgs with
        | (queue, some .success) => ({ queue with nextMemRegSize := nRegs + 1 }, some .success)
        | (queue, some _) => (queue, some .outOfMemory)
        | (queue, none) => (queue, none)

/-- The two elements of the vote. -/
def vote (queue : MessageQueue n) (abort : Bool) : Int × Int :=
  (if abort then 1 else 0, if queue.resized then 1 else 0)

/-- What `sync` does after the pending areas are registered. -/
def syncVerbs (pid : Fin n) (task : Task) (queue : MessageQueue n) (abort : Bool)
    (attr : SyncAttr) : Comm n (MessageQueue n × Except Exn Int) :=
  (IBVerbs.sync pid task queue.ibverbs (queue.vote abort) attr).bind fun (ibverbs, voted) =>
    let queue := { queue with ibverbs := ibverbs }
    match voted with
    | .error exn => .done (queue, .error exn)
    | .ok aborted =>
        if aborted ≠ 0 then .done (queue, .ok aborted)
        else .done ({ queue with resized := false }, .ok 0)

/-- End a superstep; the result is the number of processes that have aborted. -/
def sync (pid : Fin n) (task : Task) (queue : MessageQueue n) (abort : Bool) (attr : SyncAttr) :
    Comm n (MessageQueue n × Except Exn Int) :=
  (queue.memreg.sync queue.ibverbs).bind fun ((memreg, ibverbs), thrown) =>
    let queue := { queue with memreg := memreg, ibverbs := ibverbs }
    match thrown with
    | some exn => .done (queue, .error exn)
    | none => syncVerbs pid task queue abort attr

/-- Let the polling task complete the request of the last sync. -/
def completeRequest (queue : MessageQueue n) : Comm n (MessageQueue n) :=
  (queue.ibverbs.completeRequest).bind fun ibverbs => .done { queue with ibverbs := ibverbs }

end MessageQueue

end Talpf
