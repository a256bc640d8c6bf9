import Talpf.IBVerbs.Sync
import Talpf.Library.Transition
import Mathlib.Algebra.Order.Group.Multiset
import Mathlib.Data.Multiset.Basic

/-!
# Interleavings of the verbs layer

The tasks of a process post operations and end supersteps, its polling task
polls the completion queues and completes sync requests, and the device completes
operations and delivers their notifications.  `World` is the state of all
processes together with what is on its way, and `World.Step` takes one of these
actions at a time, in any order.  A sync is not one action: after the wait for
local completion it reads and clears the counts, exchanges them and hands its
request to the polling task, and anything may happen in between.
-/

namespace Talpf

namespace IBVerbs

variable {n : ℕ}

inductive OperationKind where
  | put
  | get
  | atomicFetchAndAdd
  | atomicCmpAndSwp
deriving DecidableEq, Repr

namespace OperationKind

/-- The bookkeeping of an operation. -/
def post : OperationKind → IBVerbs n → Fin n → IBVerbs n
  | .put, verbs, dstPid => verbs.put dstPid
  | .get, verbs, srcPid => verbs.get srcPid
  | .atomicFetchAndAdd, verbs, dstPid => verbs.atomicFetchAndAdd dstPid
  | .atomicCmpAndSwp, verbs, dstPid => verbs.atomicCmpAndSwp dstPid

theorem post_eq (kind : OperationKind) (verbs : IBVerbs n) (peer : Fin n) :
    kind.post verbs peer = verbs.countOperation peer := by
  cases kind <;> rfl

end OperationKind

/-- An operation that was posted, with the identity of its completion and of its notification. -/
structure Posted (n : ℕ) where
  task : Task
  /-- The process that is notified. -/
  peer : Fin n
  immData : BitVec 32
  /-- How many syncs of its process were complete. -/
  superstep : ℕ
  /-- How many syncs of its process had read the counts. -/
  epoch : ℕ
deriving DecidableEq

/-- `alpi_task_events_increase` by one -/
def eventsIncrease (events : Task → Int) (task : Task) : Task → Int :=
  Function.update events task (events task + 1)

/-- `alpi_task_events_decrease` by one -/
def eventsDecrease (events : Task → Int) (task : Task) : Task → Int :=
  Function.update events task (events task - 1)

/-- How far the sync of a process has come. -/
inductive SyncPhase (n : ℕ) where
  | idle
  /-- The wait for local completion is over. -/
  | drained (task : Task) (attr : SyncAttr)
  /-- The counts are read and are to be exchanged. -/
  | counted (task : Task) (attr : SyncAttr) (counts : Fin n → Int)
  /-- The number of messages to wait for is known. -/
  | ready (task : Task) (barrier : Bool) (remoteMsgs : Int)

/-- A process with what the device and the tasking runtime keep for it. -/
structure Party (n : ℕ) where
  verbs : IBVerbs n
  /-- The event counters of its tasks -/
  events : Task → Int
  phase : SyncPhase n
  /-- Operations that the device has not completed -/
  outstanding : Multiset (Posted n)
  /-- Completed operations that wait in the completion queue -/
  completed : Multiset (Posted n)
  /-- All operations that were ever posted -/
  log : Multiset (Posted n)
  /-- How many syncs are complete -/
  superstep : ℕ
  /-- How many syncs have read the counts -/
  epoch : ℕ

namespace Party

def initial (device : Device n) : Party n where
  verbs := .initial device
  events := fun _ => 0
  phase := .idle
  outstanding := 0
  completed := 0
  log := 0
  superstep := 0
  epoch := 0

/-- What a task would post now. -/
def operation (party : Party n) (task : Task) (peer : Fin n) : Posted n where
  task := task
  peer := peer
  immData := party.verbs.immData
  superstep := party.superstep
  epoch := party.epoch

def post (party : Party n) (task : Task) (kind : OperationKind) (peer : Fin n) : Party n :=
  let op := party.operation task peer
  { party with
    verbs := kind.post party.verbs peer
    events := eventsIncrease party.events task
    outstanding := op ::ₘ party.outstanding
    log := op ::ₘ party.log }

/-- Poll completions, each of which decreases the events of its task. -/
def localProgress (party : Party n) (wcs : List (Posted n)) (rest : Multiset (Posted n)) :
    Party n :=
  { party with
    verbs := party.verbs.doLocalProgress wcs.length
    events := wcs.foldl (fun events wc => eventsDecrease events wc.task) party.events
    completed := rest }

/-- Read and clear the counts, and find out which number of messages to wait for. -/
def readCounts (party : Party n) (task : Task) (attr : SyncAttr) : Party n :=
  let counts := party.verbs.numMsgsSync
  let verbs := party.verbs.clearMsgsSync
  let party := { party with epoch := party.epoch + 1 }
  match attr.mode with
  | .cached =>
      if verbs.syncCached then
        { party with verbs := verbs, phase := .ready task attr.barrier verbs.syncCachedValue }
      else
        { party with
          verbs := { verbs with syncCached := true }, phase := .counted task attr counts }
  | .default => { party with verbs := verbs, phase := .counted task attr counts }
  | .msg => { party with verbs := verbs, phase := .ready task attr.barrier attr.value }
  | .unknown => { party with verbs := verbs, phase := .ready task attr.barrier 0 }

/-- Remember what the exchange of the counts has found. -/
def exchanged (party : Party n) (task : Task) (attr : SyncAttr) (remoteMsgs : Int) : Party n :=
  { party with
    verbs := party.verbs.storeCount attr.mode remoteMsgs
    phase := .ready task attr.barrier remoteMsgs }

/-- Hand the request to the polling task. -/
def request (party : Party n) (task : Task) (barrier : Bool) (remoteMsgs : Int) :
    Option (Party n) :=
  (party.verbs.requestSync barrier remoteMsgs task).map fun verbs =>
    { party with verbs := verbs, events := eventsIncrease party.events task, phase := .idle }

/-- One look at the sync request.  `none` is an access out of bounds. -/
def processSyncRequest (party : Party n) (flag : Bool) : Option (Party n) :=
  match party.verbs.processSyncRequest flag with
  | .waiting => some party
  | .barrier after => some { party with verbs := after }
  | .complete after task => some
      { party with
        verbs := after
        events := task.elim party.events (eventsDecrease party.events)
        superstep := party.superstep + 1 }
  | .fault => none

end Party

/-- An exchange of counts. -/
structure Exchange (n : ℕ) where
  /-- The superstep of each process that its sync ends -/
  superstep : Fin n → ℕ
  /-- The values that each process exchanges -/
  counts : Fin n → Fin n → Int
  /-- What each process is told -/
  remoteMsgs : Fin n → Int

structure World (n : ℕ) where
  parties : Fin n → Party n
  /-- Notifications on their way to each process -/
  travelling : Fin n → Multiset (Posted n)
  /-- All exchanges of counts so far -/
  exchanges : List (Exchange n)

namespace World

def initial (devices : Fin n → Device n) : World n where
  parties := fun p => .initial (devices p)
  travelling := fun _ => 0
  exchanges := []

inductive Action (n : ℕ) where
  | post (pid : Fin n) (task : Task) (kind : OperationKind) (peer : Fin n)
  /-- The device completes an operation. -/
  | complete (pid : Fin n) (op : Posted n)
  /-- A poll of the local completion queue. -/
  | localProgress (pid : Fin n) (wcs : List (Posted n))
  /-- A poll of the notifications. -/
  | remoteProgress (pid : Fin n) (wcs : List (Posted n))
  /-- A sync sees that all operations are complete. -/
  | drain (pid : Fin n) (task : Task) (attr : SyncAttr)
  | readCounts (pid : Fin n)
  /-- The collective exchange of all processes. -/
  | exchange
  | request (pid : Fin n)
  | processSyncRequest (pid : Fin n) (flag : Bool)

/-- One process moves. -/
def move (world : World n) (pid : Fin n) (party : Party n) : World n :=
  { world with parties := Function.update world.parties pid party }

/-- Every process moves. -/
def Step (before : World n) : Action n → World n → Prop
  | .post pid task kind peer, after =>
      after = { before.move pid ((before.parties pid).post task kind peer) with
        travelling := Function.update before.travelling peer
          ((before.parties pid).operation task peer ::ₘ before.travelling peer) }
  | .complete pid op, after => ∃ rest, (before.parties pid).outstanding = op ::ₘ rest ∧
      after = before.move pid { before.parties pid with
        outstanding := rest
        completed := op ::ₘ (before.parties pid).completed }
  | .localProgress pid wcs, after => ∃ rest, (before.parties pid).completed = wcs + rest ∧
      after = before.move pid ((before.parties pid).localProgress wcs rest)
  | .remoteProgress pid wcs, after => ∃ rest, before.travelling pid = wcs + rest ∧
      after = { before.move pid { before.parties pid with
          verbs := (before.parties pid).verbs.doRemoteProgress (wcs.map Posted.immData) } with
        travelling := Function.update before.travelling pid rest }
  | .drain pid task attr, after => (before.parties pid).phase = .idle ∧
      ¬(before.parties pid).verbs.numMsgs > 0 ∧
      after = before.move pid { before.parties pid with phase := .drained task attr }
  | .readCounts pid, after => ∃ task attr, (before.parties pid).phase = .drained task attr ∧
      after = before.move pid ((before.parties pid).readCounts task attr)
  | .exchange, after => ∃ (task : Fin n → Task) (attr : Fin n → SyncAttr)
      (counts : Fin n → Fin n → Int) (rounds : List (Fin n → Collective n))
      (remoteMsgs : Fin n → Int),
      (∀ p, (before.parties p).phase = .counted (task p) (attr p) (counts p)) ∧
        Spmd.Executes (fun p => exchangeCounts p (counts p) (List.finRange n) 0) rounds
          remoteMsgs ∧
        after = { before with
          parties := fun p => (before.parties p).exchanged (task p) (attr p) (remoteMsgs p)
          exchanges := ⟨fun p => (before.parties p).epoch - 1, counts, remoteMsgs⟩ ::
            before.exchanges }
  | .request pid, after => ∃ task barrier remoteMsgs party,
      (before.parties pid).phase = .ready task barrier remoteMsgs ∧
        (before.parties pid).request task barrier remoteMsgs = some party ∧
        after = before.move pid party
  | .processSyncRequest pid flag, after => ∃ party,
      (before.parties pid).verbs.syncRequest.isActive = true ∧
        (before.parties pid).processSyncRequest flag = some party ∧
        after = before.move pid party

end World

/-- What an action does to one process. -/
inductive Party.Moves (party : Party n) (p : Fin n) : World.Action n → Party n → Prop where
  | stays (action : World.Action n) : Moves party p action party
  | post (task : Task) (kind : OperationKind) (peer : Fin n) :
      Moves party p (.post p task kind peer) (party.post task kind peer)
  | complete {op : Posted n} {rest : Multiset (Posted n)}
      (first : party.outstanding = op ::ₘ rest) :
      Moves party p (.complete p op)
        { party with outstanding := rest, completed := op ::ₘ party.completed }
  | localProgress {wcs : List (Posted n)} {rest : Multiset (Posted n)}
      (polled : party.completed = wcs + rest) :
      Moves party p (.localProgress p wcs) (party.localProgress wcs rest)
  | remoteProgress (wcs : List (Posted n)) :
      Moves party p (.remoteProgress p wcs)
        { party with verbs := party.verbs.doRemoteProgress (wcs.map Posted.immData) }
  | drain (idle : party.phase = .idle) (task : Task) (attr : SyncAttr) :
      Moves party p (.drain p task attr) { party with phase := .drained task attr }
  | readCounts {task : Task} {attr : SyncAttr} (drained : party.phase = .drained task attr) :
      Moves party p (.readCounts p) (party.readCounts task attr)
  | exchange {task : Task} {attr : SyncAttr} {counts : Fin n → Int}
      (counted : party.phase = .counted task attr counts) (remoteMsgs : Int) :
      Moves party p .exchange (party.exchanged task attr remoteMsgs)
  | request {task : Task} {barrier : Bool} {remoteMsgs : Int}
      (ready : party.phase = .ready task barrier remoteMsgs) {after : Party n}
      (accepted : party.request task barrier remoteMsgs = some after) :
      Moves party p (.request p) after
  | processSyncRequest (active : party.verbs.syncRequest.isActive = true) {flag : Bool}
      {after : Party n} (processed : party.processSyncRequest flag = some after) :
      Moves party p (.processSyncRequest p flag) after

namespace World

/-- One process moves and the others stay. -/
theorem moves_update {parties : Fin n → Party n} {pid : Fin n} {action : Action n}
    {party : Party n} (moves : (parties pid).Moves pid action party) (p : Fin n) :
    (parties p).Moves p action (Function.update parties pid party p) := by
  rw [Function.update_apply]
  split
  next same =>
    rw [same]
    exact moves
  next => exact .stays action

/-- A step moves every process as its action says. -/
theorem Step.moves {before after : World n} {action : Action n}
    (taken : Step before action after) (p : Fin n) :
    (before.parties p).Moves p action (after.parties p) := by
  cases action with
  | post pid task kind peer =>
      rw [taken]
      exact moves_update (.post task kind peer) p
  | complete pid op =>
      rcases taken with ⟨rest, first, rfl⟩
      exact moves_update (.complete first) p
  | localProgress pid wcs =>
      rcases taken with ⟨rest, polled, rfl⟩
      exact moves_update (.localProgress polled) p
  | remoteProgress pid wcs =>
      rcases taken with ⟨rest, _, rfl⟩
      exact moves_update (.remoteProgress wcs) p
  | drain pid task attr =>
      rcases taken with ⟨idle, _, rfl⟩
      exact moves_update (.drain idle task attr) p
  | readCounts pid =>
      rcases taken with ⟨task, attr, drained, rfl⟩
      exact moves_update (.readCounts drained) p
  | exchange =>
      rcases taken with ⟨task, attr, counts, rounds, remoteMsgs, counted, _, rfl⟩
      exact .exchange (counted p) (remoteMsgs p)
  | request pid =>
      rcases taken with ⟨task, barrier, remoteMsgs, party, ready, accepted, rfl⟩
      exact moves_update (.request ready accepted) p
  | processSyncRequest pid flag =>
      rcases taken with ⟨party, active, processed, rfl⟩
      exact moves_update (.processSyncRequest active processed) p

/-- Only the collective exchange is noted. -/
theorem Step.exchanges {before after : World n} {action : Action n}
    (taken : Step before action after) (other : action ≠ .exchange) :
    after.exchanges = before.exchanges := by
  cases action with
  | post pid task kind peer =>
      rw [taken]
      rfl
  | complete pid op =>
      rcases taken with ⟨_, _, rfl⟩
      rfl
  | localProgress pid wcs =>
      rcases taken with ⟨_, _, rfl⟩
      rfl
  | remoteProgress pid wcs =>
      rcases taken with ⟨_, _, rfl⟩
      rfl
  | drain pid task attr =>
      rcases taken with ⟨_, _, rfl⟩
      rfl
  | readCounts pid =>
      rcases taken with ⟨_, _, _, rfl⟩
      rfl
  | exchange => exact absurd rfl other
  | request pid =>
      rcases taken with ⟨_, _, _, _, _, _, rfl⟩
      rfl
  | processSyncRequest pid flag =>
      rcases taken with ⟨_, _, _, rfl⟩
      rfl

/-- No process posts an operation from the reading of the counts by its sync until the request of
that sync is complete. -/
def Quiet (world : World n) : Action n → Prop
  | .post pid _ _ _ => ((world.parties pid).phase = .idle ∨
      ∃ task attr, (world.parties pid).phase = .drained task attr) ∧
        (world.parties pid).verbs.syncRequest.isActive = false
  | _ => True

/-- No process posts an operation while its own sync request is active. -/
def Unrequested (world : World n) : Action n → Prop
  | .post pid _ _ _ => (world.parties pid).verbs.syncRequest.isActive = false
  | _ => True

/-- All processes call sync with the same sequence of attributes. -/
def Uniform (attrs : ℕ → SyncAttr) (world : World n) : Action n → Prop
  | .drain pid _ attr => attr = attrs (world.parties pid).epoch
  | _ => True

abbrev Reachable (devices : Fin n → Device n) (permitted : World n → Action n → Prop) :
    World n → Prop :=
  Transition.Reachable Step permitted (initial devices)

end World

end IBVerbs

end Talpf
