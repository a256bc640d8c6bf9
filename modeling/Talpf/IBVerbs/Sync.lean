import Talpf.IBVerbs.State

/-!
# The collective functions of the verbs layer

`reconnectQPs` replaces the connected queue pairs by the staged ones, and `sync`
ends a superstep: in the default mode a vote on aborts and resizes and a
possible reconnection, then the wait for local completion, the exchange of
message counts that the mode asks for, and the request that the polling task
completes later.  Both are programs on the machine communicator.
-/

namespace Talpf

namespace IBVerbs

open Spmd

variable {n : ℕ}

/-- Bring the staged queue pairs to the given peers to their final state, up to the first one
for which a transition fails. -/
def connectPeers (reconnect : ℕ) (remoteQpNums lids gids : Fin n → ℕ) :
    List (Fin n) → IBVerbs n → IBVerbs n × Bool
  | [], verbs => (verbs, true)
  | peer :: peers, verbs =>
      if verbs.device.modifyQp reconnect peer then
        connectPeers reconnect remoteQpNums lids gids peers { verbs with
          stagedQps := Function.update verbs.stagedQps peer
            ((verbs.stagedQps peer).map fun qp =>
              { qp with remote := some (remoteQpNums peer, lids peer, gids peer) }) }
      else (verbs, false)

/-- Put the staged queue pairs in the place of the connected ones and drop the latter. -/
def swapQps (verbs : IBVerbs n) : IBVerbs n :=
  { verbs with connectedQps := verbs.stagedQps, stagedQps := fun _ => none }

/-- The part of the reconnection after all processes have exchanged their addresses. -/
def connectQPs (verbs : IBVerbs n) (reconnect : ℕ) (remoteQpNums lids gids : Fin n → ℕ) :
    Comm n (IBVerbs n × Option Exn) :=
  let (verbs, connected) :=
    connectPeers reconnect remoteQpNums lids gids (List.finRange n) verbs
  if connected then
    .call (.allreduceOr false) fun (failed : Bool) =>
      if failed then .done (verbs, some .exception)
      else .call .barrier fun _ => .done (verbs.swapQps, none)
  else .call (.allreduceOr true) fun _ => .done (verbs, some .exception)

/-- The part of the reconnection that announces the queue pairs staged for each peer. -/
def exchangeQPs (verbs : IBVerbs n) (reconnect : ℕ) (qpNums : Fin n → ℕ) (gid : ℕ) :
    Comm n (IBVerbs n × Option Exn) :=
  .call (.allreduceOr false) fun (failed : Bool) =>
    if failed then .done (verbs, some .exception)
    else
      .call (.allToAll qpNums) fun remoteQpNums =>
      .call (.allgatherLid verbs.device.lid) fun lids =>
      .call (.allgatherGid gid) fun gids =>
        verbs.connectQPs reconnect remoteQpNums lids gids

/-- Whether a queue pair is staged for every peer. -/
def Staged (verbs : IBVerbs n) : Prop := ∀ peer, (verbs.stagedQps peer).isSome

instance (verbs : IBVerbs n) : Decidable verbs.Staged :=
  inferInstanceAs (Decidable (∀ peer, (verbs.stagedQps peer).isSome = true))

/-- Replace the connected queue pairs.  The assertion on the first staged pair and the access to
the numbers of all of them fault where nothing is staged. -/
def reconnectQPs (pid : Fin n) (verbs : IBVerbs n) : Comm n (IBVerbs n × Option Exn) :=
  if (verbs.stagedQps ⟨0, pid.pos⟩).isNone then .fault
  else
    .call .barrier fun _ =>
      let reconnect := verbs.device.reconnects
      let verbs := { verbs with device := { verbs.device with reconnects := reconnect + 1 } }
      match verbs.device.gid reconnect with
      | none => .call (.allreduceOr true) fun _ => .done (verbs, some .exception)
      | some gid =>
          if verbs.device.exchangeFits reconnect then
            if verbs.Staged then
              verbs.exchangeQPs reconnect
                (fun peer => ((verbs.stagedQps peer).map Qp.qpNum).getD 0) gid
            else .fault
          else .call (.allreduceOr true) fun _ => .done (verbs, some .badAlloc)

/-- Sum up, one process after the other, the messages that are on their way to it; the result is
the sum for process `pid`. -/
def exchangeCounts (pid : Fin n) (counts : Fin n → Int) : List (Fin n) → Int → Comm n Int
  | [], remoteMsgs => .done remoteMsgs
  | i :: peers, remoteMsgs =>
      .call (.allreduceSum (counts i)) fun (sum : Int) =>
        exchangeCounts pid counts peers (if i = pid then sum else remoteMsgs)

/-- Exchange the message counts and remember the result. -/
def exchange (pid : Fin n) (verbs : IBVerbs n) (mode : SyncMode) (counts : Fin n → Int) :
    Comm n (IBVerbs n × Int) :=
  (exchangeCounts pid counts (List.finRange n) 0).bind fun remoteMsgs =>
    .done (verbs.storeCount mode remoteMsgs, remoteMsgs)

/-- The number of messages to wait for. -/
def expectedMsgs (pid : Fin n) (verbs : IBVerbs n) (attr : SyncAttr) (counts : Fin n → Int) :
    Comm n (IBVerbs n × Int) :=
  match attr.mode with
  | .cached =>
      if verbs.syncCached then .done (verbs, verbs.syncCachedValue)
      else exchange pid { verbs with syncCached := true } .cached counts
  | .default => exchange pid verbs .default counts
  | .msg => .done (verbs, attr.value)
  | .unknown => .done (verbs, 0)

/-- The sync from the wait for local completion on.  In a sequential view of the process the
polling task has drained all completions when the wait ends. -/
def syncCounts (pid : Fin n) (task : Task) (verbs : IBVerbs n) (vote : Int) (attr : SyncAttr) :
    Comm n (IBVerbs n × Except Exn Int) :=
  let drained := { verbs with numMsgs := min verbs.numMsgs 0 }
  (expectedMsgs pid drained.clearMsgsSync attr drained.numMsgsSync).bind
    fun (verbs, remoteMsgs) =>
      match verbs.requestSync attr.barrier remoteMsgs task with
      | some verbs => .done (verbs, .ok vote)
      | none => .done (verbs, .error .exception)

/-- End a superstep.  The result is the first element of the vote. -/
def sync (pid : Fin n) (task : Task) (verbs : IBVerbs n) (vote : Int × Int) (attr : SyncAttr) :
    Comm n (IBVerbs n × Except Exn Int) :=
  if attr.mode = .default then
    .call (.iallreduceSum vote) fun (voted : Int × Int) =>
      if voted.1 ≠ 0 then .done (verbs, .ok voted.1)
      else if voted.2 > 0 then
        (reconnectQPs pid verbs).bind fun (verbs, thrown) =>
          match thrown with
          | none => syncCounts pid task verbs vote.1 attr
          | some exn => .done (verbs, .error exn)
      else syncCounts pid task verbs vote.1 attr
  else syncCounts pid task verbs vote.1 attr

/-- What the polling task does with an accepted request once all its messages have arrived: the
barrier, if it has one, and the end of the superstep.  The arriving messages and their
subtraction leave the ring as it was. -/
def completeRequest (verbs : IBVerbs n) : Comm n (IBVerbs n) :=
  if verbs.syncRequest.isActive then
    let taken := { verbs with syncRequest := { verbs.syncRequest with remoteMsgs := 0 } }
    if verbs.syncRequest.withBarrier then .call .ibarrier fun _ => .done taken.finishRequest
    else .done taken.releaseRequest
  else .done verbs

end IBVerbs

end Talpf
