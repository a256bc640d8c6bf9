import Talpf.IBVerbs.Interleaving
import Talpf.IBVerbs.Keys

/-!
# Posting operations

Before an operation hands its requests to the device, it counts itself and adds
an event to its task, which the polling task takes away with the completion.  If
the device takes none of the requests, the operation takes back the counts and
throws.  It does not take back the event.
-/

namespace Talpf

namespace IBVerbs

variable {n : ℕ}

/-- Take back the bookkeeping of one operation. -/
def uncountOperation (verbs : IBVerbs n) (peer : Fin n) : IBVerbs n :=
  { verbs with
    numMsgs := verbs.numMsgs - 1
    numMsgsSync := Function.update verbs.numMsgsSync peer (verbs.numMsgsSync peer - 1) }

/-- The verbs layer and the tasks of its process. -/
structure Caller (n : ℕ) where
  verbs : IBVerbs n
  /-- The event counters of the tasks -/
  events : Task → Int

/-- What code outside of the verbs layer answers to an operation. -/
structure Services where
  /-- `alpi_task_events_increase` succeeds; a failure is only logged. -/
  increases : Bool
  /-- `ibv_post_send` takes the list. -/
  posts : List SendWr → Bool

namespace Caller

variable (services : Services) (caller : Caller n)

/-- Count an operation to a peer. -/
def count (peer : Fin n) : Caller n := { caller with verbs := caller.verbs.countOperation peer }

/-- Add an event to the task. -/
def increase (task : Task) : Caller n :=
  if services.increases then { caller with events := eventsIncrease caller.events task } else caller

/-- Hand the requests to the queue pair of the peer.  `none` is a null pointer. -/
def send (peer : Fin n) (requests : List SendWr) : Option (Caller n × Option Exn) :=
  (caller.verbs.connectedQps peer).map fun _ =>
    if services.posts requests then (caller, none)
    else ({ caller with verbs := caller.verbs.uncountOperation peer }, some .exception)

variable (pid : Fin n) (maxMsgSize : ℕ) (task : Task)

def put (srcSlot srcOffset : ℕ) (dstPid : Fin n) (dstSlot dstOffset size : ℕ) :
    Option (Caller n × Option Exn) :=
  let raised := (caller.count dstPid).increase services task
  (putRequests pid raised.verbs maxMsgSize task srcSlot srcOffset dstPid dstSlot dstOffset
    size).bind (raised.send services dstPid)

def get (srcPid : Fin n) (srcSlot srcOffset dstSlot dstOffset size : ℕ) :
    Option (Caller n × Option Exn) :=
  let raised := (caller.count srcPid).increase services task
  (getRequests pid raised.verbs maxMsgSize task srcPid srcSlot srcOffset dstSlot dstOffset
    size).bind (raised.send services srcPid)

/-- The atomic operations add the event before they count themselves. -/
def atomicFetchAndAdd (srcSlot srcOffset : ℕ) (dstPid : Fin n) (dstSlot dstOffset value : ℕ) :
    Option (Caller n × Option Exn) :=
  let raised := (caller.increase services task).count dstPid
  (atomicFetchAndAddRequests pid raised.verbs task srcSlot srcOffset dstPid dstSlot dstOffset
    value).bind (raised.send services dstPid)

def atomicCmpAndSwp (srcSlot srcOffset : ℕ) (dstPid : Fin n) (dstSlot dstOffset cmp swp : ℕ) :
    Option (Caller n × Option Exn) :=
  let raised := (caller.increase services task).count dstPid
  (atomicCmpAndSwpRequests pid raised.verbs task srcSlot srcOffset dstPid dstSlot dstOffset cmp
    swp).bind (raised.send services dstPid)

/-- Carry out any operation. -/
def post : Operation n → Option (Caller n × Option Exn)
  | .put srcSlot srcOffset dstPid dstSlot dstOffset size =>
      caller.put services pid maxMsgSize task srcSlot srcOffset dstPid dstSlot dstOffset size
  | .get srcPid srcSlot srcOffset dstSlot dstOffset size =>
      caller.get services pid maxMsgSize task srcPid srcSlot srcOffset dstSlot dstOffset size
  | .atomicFetchAndAdd srcSlot srcOffset dstPid dstSlot dstOffset value =>
      caller.atomicFetchAndAdd services pid task srcSlot srcOffset dstPid dstSlot dstOffset value
  | .atomicCmpAndSwp srcSlot srcOffset dstPid dstSlot dstOffset cmp swp =>
      caller.atomicCmpAndSwp services pid task srcSlot srcOffset dstPid dstSlot dstOffset cmp swp

end Caller

/-- The counters of all peers and the events of the calling task are as they were. -/
structure Undone (task : Task) (before after : Caller n) : Prop where
  numMsgs : after.verbs.numMsgs = before.verbs.numMsgs
  numMsgsSync : ∀ peer, after.verbs.numMsgsSync peer = before.verbs.numMsgsSync peer
  events : after.events task = before.events task

section Failing

variable {services : Services} {caller after : Caller n} {pid : Fin n} {maxMsgSize : ℕ}
  {task : Task} {op : Operation n} {requests : List SendWr} {thrown : Option Exn}

theorem uncountOperation_countOperation (verbs : IBVerbs n) (peer : Fin n) :
    (verbs.countOperation peer).uncountOperation peer = verbs := by
  have total : verbs.numMsgs + 1 - 1 = verbs.numMsgs := Int.add_sub_cancel _ _
  have toPeer : verbs.numMsgsSync peer + 1 - 1 = verbs.numMsgsSync peer := Int.add_sub_cancel _ _
  simp only [uncountOperation, countOperation, Function.update_self, Function.update_idem, total,
    toPeer, Function.update_eq_self]

/-- Adding the event and counting the operation do not depend on each other. -/
theorem Caller.count_increase (caller : Caller n) (peer : Fin n) :
    (caller.increase services task).count peer = (caller.count peer).increase services task := by
  rw [increase, increase]
  split <;> rfl

theorem Caller.verbs_increase (caller : Caller n) :
    (caller.increase services task).verbs = caller.verbs := by
  rw [increase]
  split <;> rfl

theorem Caller.events_increase (caller : Caller n) :
    (caller.increase services task).events task =
      caller.events task + if services.increases then 1 else 0 := by
  rw [increase]
  split
  next => exact Function.update_self _ _ _
  next => exact (Int.add_zero _).symm

/-- The counters have no influence on the requests. -/
theorem Operation.requests_countOperation (verbs : IBVerbs n) (peer : Fin n) :
    op.requests pid (verbs.countOperation peer) maxMsgSize task =
      op.requests pid verbs maxMsgSize task := by
  cases op <;> rfl

/-- All operations raise the same counters and then hand over their requests. -/
theorem Caller.post_eq (caller : Caller n) :
    caller.post services pid maxMsgSize task op =
      (op.requests pid caller.verbs maxMsgSize task).bind
        (((caller.count op.peer).increase services task).send services op.peer) := by
  have raised : ((caller.count op.peer).increase services task).verbs =
      caller.verbs.countOperation op.peer := verbs_increase _
  rw [← Operation.requests_countOperation caller.verbs op.peer, ← raised]
  cases op with
  | put => rfl
  | get => rfl
  | atomicFetchAndAdd =>
      rw [post, atomicFetchAndAdd, count_increase]
      rfl
  | atomicCmpAndSwp =>
      rw [post, atomicCmpAndSwp, count_increase]
      rfl

/-- What a failed operation leaves behind. -/
theorem Caller.post_failed (listed : op.requests pid caller.verbs maxMsgSize task = some requests)
    (fails : services.posts requests = false)
    (posted : caller.post services pid maxMsgSize task op = some (after, thrown)) :
    after.verbs = caller.verbs ∧
      after.events = ((caller.count op.peer).increase services task).events ∧
      thrown = some .exception := by
  rw [post_eq, listed] at posted
  rcases Option.map_eq_some_iff.mp posted with ⟨qp, _, result⟩
  rw [fails, if_neg Bool.false_ne_true, Prod.mk.injEq] at result
  rcases result with ⟨rfl, rfl⟩
  refine ⟨?_, rfl, rfl⟩
  rw [verbs_increase]
  exact uncountOperation_countOperation caller.verbs op.peer

/--
An operation of which the device takes nothing throws, and it leaves the
counters and the events of its task as they were if and only if the runtime did
not add the event in the first place.
-/
theorem Caller.undone_iff
    (listed : op.requests pid caller.verbs maxMsgSize task = some requests)
    (fails : services.posts requests = false)
    (posted : caller.post services pid maxMsgSize task op = some (after, thrown)) :
    (thrown = some .exception ∧ Undone task caller after) ↔ services.increases = false := by
  rcases post_failed listed fails posted with ⟨sameVerbs, events, throws⟩
  have raised : after.events task =
      caller.events task + if services.increases then 1 else 0 := by
    rw [events, events_increase]
    rfl
  constructor
  · rintro ⟨_, undone⟩
    have same := undone.events
    rw [raised] at same
    by_contra increases
    rw [Bool.not_eq_false] at increases
    rw [if_pos increases] at same
    omega
  · intro refused
    refine ⟨throws, ?_, ?_, ?_⟩
    · rw [sameVerbs]
    · intro peer
      rw [sameVerbs]
    · rw [raised, refused]
      exact Int.add_zero _

end Failing

/-- The first of two processes, connected to both, whose tasks have no events. -/
def idleCaller : Caller 2 where
  verbs := { oneGlobal ⟨0, Nat.zero_lt_two⟩ with
    connectedQps := fun peer => some ⟨peer.val, some (peer.val, 0, 0)⟩ }
  events _ := 0

/-- A device that takes nothing. -/
def refusing (increases : Bool) : Services := ⟨increases, fun _ => false⟩

theorem undone_idleCaller : ∃ after,
    idleCaller.post (refusing false) 0 1024 7 (.put 0 0 1 0 8 8) =
      some (after, some .exception) ∧ Undone 7 idleCaller after := by
  refine ⟨_, rfl, ?_⟩
  have restored := @Caller.undone_iff 2 (refusing false) idleCaller _ 0 1024 7 (.put 0 0 1 0 8 8)
    _ _ rfl rfl rfl
  exact (restored.mpr rfl).2

/-- The event of a failed put remains. -/
theorem not_undone : ∃ (op : Operation 2) (requests : List SendWr) (after : Caller 2),
    op.requests 0 idleCaller.verbs 1024 7 = some requests ∧
      (refusing true).posts requests = false ∧
      idleCaller.post (refusing true) 0 1024 7 op = some (after, some .exception) ∧
      ¬Undone 7 idleCaller after := by
  refine ⟨.put 0 0 1 0 8 8, _, _, rfl, rfl, rfl, ?_⟩
  intro undone
  exact absurd undone.events (by decide)

end IBVerbs

end Talpf
