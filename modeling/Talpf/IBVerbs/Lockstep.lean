import Talpf.IBVerbs.Sync
import Mathlib.Data.List.FinRange

/-!
# Lockstep executions of the verbs layer

What happens when all processes call the collective functions of the verbs
layer together: the vote, the reconnection, the exchange of message counts, and
the completion of a sync request.  Each function has one theorem with its
rounds, its results and the fields that it leaves alone.
-/

namespace Talpf

open Spmd

namespace IBVerbs

variable {n : ℕ} {verbs : Fin n → IBVerbs n}

/-- Every process learns how many messages are on their way to it. -/
theorem exchangeCounts_executes (counts : Fin n → Fin n → Int) (peers : List (Fin n))
    (remoteMsgs : Fin n → Int) :
    ∃ rounds, (∀ p, Collective.kinds p rounds = List.replicate peers.length .allreduceSum) ∧
      Executes (fun p => exchangeCounts p (counts p) peers (remoteMsgs p)) rounds
        (fun p => if p ∈ peers then ∑ q, counts q p else remoteMsgs p) := by
  induction peers generalizing remoteMsgs with
  | nil => exact ⟨[], fun p => rfl, by simpa [exchangeCounts] using Executes.of_done _⟩
  | cons i peers ih =>
      rcases ih fun p => if i = p then ∑ q, counts q i else remoteMsgs p with
        ⟨rounds, roundKinds, execution⟩
      have values : ∀ p, (if p ∈ i :: peers then ∑ q, counts q p else remoteMsgs p) =
          if p ∈ peers then ∑ q, counts q p
          else if i = p then ∑ q, counts q i else remoteMsgs p := by
        intro p
        by_cases same : i = p
        · subst same
          simp
        · simp [same, Ne.symm same]
      refine ⟨(fun p => .allreduceSum (counts p i)) :: rounds, fun p => ?_, ?_⟩
      · rw [Collective.kinds_cons, roundKinds p]
        rfl
      · rw [funext values]
        exact Comm.executes_allreduceSum execution

/-- The reductions with which a sync finds the number of messages to wait for. -/
def countKinds (n : ℕ) (mode : SyncMode) (syncCached : Bool) : List CollectiveKind :=
  match mode with
  | .default => List.replicate n .allreduceSum
  | .cached => if syncCached then [] else List.replicate n .allreduceSum
  | .msg | .unknown => []

/-- Whether the number is cached after a sync. -/
def cachedAfter (mode : SyncMode) (syncCached : Bool) : Bool :=
  match mode with
  | .default => false
  | .cached => true
  | .msg | .unknown => syncCached

/-- What a sync leaves behind once its request is accepted. -/
structure Requested (attr : SyncAttr) (before after : IBVerbs n) : Prop where
  active : after.syncRequest.isActive = true
  withBarrier : after.syncRequest.withBarrier = attr.barrier
  cached : after.syncCached = cachedAfter attr.mode before.syncCached
  sameStaged : after.stagedQps = before.stagedQps
  sameConnected : after.connectedQps = before.connectedQps
  sameMemreg : after.memreg = before.memreg
  sameDevice : after.device = before.device

theorem exchange_executes (verbs : Fin n → IBVerbs n) (mode : SyncMode)
    (counts : Fin n → Fin n → Int) :
    ∃ rounds, (∀ p, Collective.kinds p rounds = List.replicate n .allreduceSum) ∧
      Executes (fun p => exchange p (verbs p) mode (counts p)) rounds
        (fun p => ((verbs p).storeCount mode (∑ q, counts q p), ∑ q, counts q p)) := by
  rcases exchangeCounts_executes counts (List.finRange n) (fun _ => 0) with
    ⟨rounds, roundKinds, execution⟩
  refine ⟨rounds ++ [], fun p => by simpa using roundKinds p, execution.bind ?_⟩
  simp only [List.mem_finRange, if_true]
  exact .of_done _

/-- Processes that agree on whether the number is cached find it together. -/
theorem expectedMsgs_executes (verbs : Fin n → IBVerbs n) (attr : SyncAttr)
    (counts : Fin n → Fin n → Int)
    (agree : attr.mode = .cached → ∀ p q, (verbs p).syncCached = (verbs q).syncCached) :
    ∃ (rounds : List (Fin n → Collective n)) (after : Fin n → IBVerbs n)
      (remoteMsgs : Fin n → Int),
      (∀ p, Collective.kinds p rounds = countKinds n attr.mode (verbs p).syncCached) ∧
      Executes (fun p => expectedMsgs p (verbs p) attr (counts p)) rounds
        (fun p => (after p, remoteMsgs p)) ∧
      ∀ p, after p = { verbs p with
        syncCached := cachedAfter attr.mode (verbs p).syncCached
        syncCachedValue := (after p).syncCachedValue } := by
  cases mode : attr.mode with
  | default =>
      rcases exchange_executes verbs .default counts with
        ⟨rounds, roundKinds, execution⟩
      refine ⟨rounds, fun p => (verbs p).storeCount .default (∑ q, counts q p),
        fun p => ∑ q, counts q p, roundKinds, ?_, fun p => rfl⟩
      simp only [expectedMsgs, mode]
      exact execution
  | cached =>
      by_cases all : ∀ p, (verbs p).syncCached = true
      · refine ⟨[], verbs, fun p => (verbs p).syncCachedValue, fun p => ?_, ?_, fun p => ?_⟩
        · simp [countKinds, all p]
        · simp only [expectedMsgs, mode, all, if_true]
          exact .of_done _
        · simp [cachedAfter, ← all p]
      · rcases not_forall.mp all with ⟨someone, notCached⟩
        have none : ∀ p, (verbs p).syncCached = false := by
          intro p
          rw [agree mode p someone]
          exact Bool.eq_false_iff.mpr notCached
        rcases exchange_executes (fun p => { verbs p with syncCached := true })
          .cached counts with ⟨rounds, roundKinds, execution⟩
        refine ⟨rounds, fun p => ({ verbs p with syncCached := true } : IBVerbs n).storeCount
          .cached (∑ q, counts q p), fun p => ∑ q, counts q p, fun p => ?_, ?_, fun p => rfl⟩
        · rw [roundKinds p, none p]
          rfl
        · simp only [expectedMsgs, mode, none, Bool.false_eq_true, if_false]
          exact execution
  | msg =>
      refine ⟨[], verbs, fun _ => attr.value, fun p => rfl, ?_, fun p => rfl⟩
      simp only [expectedMsgs, mode]
      exact .of_done _
  | unknown =>
      refine ⟨[], verbs, fun _ => 0, fun p => rfl, ?_, fun p => rfl⟩
      simp only [expectedMsgs, mode]
      exact .of_done _

/-- From the wait for local completion on, processes whose last request is complete end the
superstep together. -/
theorem syncCounts_executes (attr : SyncAttr) (task : Fin n → Task) (vote : Fin n → Int)
    (agree : attr.mode = .cached → ∀ p q, (verbs p).syncCached = (verbs q).syncCached)
    (idle : ∀ p, (verbs p).syncRequest.isActive = false) :
    ∃ (rounds : List (Fin n → Collective n)) (after : Fin n → IBVerbs n),
      (∀ p, Collective.kinds p rounds = countKinds n attr.mode (verbs p).syncCached) ∧
      Executes (fun p => syncCounts p (task p) (verbs p) (vote p) attr) rounds
        (fun p => (after p, .ok (vote p))) ∧
      ∀ p, Requested attr (verbs p) (after p) := by
  let drained : Fin n → IBVerbs n := fun p => { verbs p with numMsgs := min (verbs p).numMsgs 0 }
  let cleared : Fin n → IBVerbs n := fun p => (drained p).clearMsgsSync
  rcases expectedMsgs_executes cleared attr (fun p => (drained p).numMsgsSync) agree with
    ⟨rounds, counted, remoteMsgs, roundKinds, execution, same⟩
  let after : Fin n → IBVerbs n := fun p => { counted p with
    syncRequest :=
      { (counted p).syncRequest with
        withBarrier := attr.barrier
        remoteMsgs := remoteMsgs p
        task := some (task p)
        isActive := true } }
  have accepted : ∀ p, (counted p).requestSync attr.barrier (remoteMsgs p) (task p) =
      some (after p) := by
    intro p
    have inactive : (counted p).syncRequest.isActive = false := by
      rw [same p]
      exact idle p
    simp [requestSync, inactive, after]
  refine ⟨rounds ++ [], after, fun p => ?_, execution.bind ?_, fun p => ?_⟩
  · rw [List.append_nil]
    exact roundKinds p
  · simp only [accepted]
    exact .of_done _
  · have cached := congrArg syncCached (same p)
    have staged := congrArg stagedQps (same p)
    have connected := congrArg connectedQps (same p)
    have slots := congrArg memreg (same p)
    have devices := congrArg device (same p)
    exact ⟨rfl, rfl, cached, staged, connected, slots, devices⟩

/-- Requests that are active at all processes, with or without a barrier, complete together. -/
theorem completeRequest_executes {withBarrier : Bool}
    (active : ∀ p, (verbs p).syncRequest.isActive = true)
    (same : ∀ p, (verbs p).syncRequest.withBarrier = withBarrier) :
    ∃ (rounds : List (Fin n → Collective n)) (after : Fin n → IBVerbs n),
      (∀ p, Collective.kinds p rounds = if withBarrier then [.ibarrier] else []) ∧
      Executes (fun p => (verbs p).completeRequest) rounds after ∧
      ∀ p, (after p).syncRequest.isActive = false ∧
        (after p).syncCached = (verbs p).syncCached ∧
        (after p).stagedQps = (verbs p).stagedQps ∧
        (after p).connectedQps = (verbs p).connectedQps ∧
        (after p).memreg = (verbs p).memreg ∧ (after p).device = (verbs p).device := by
  let taken : Fin n → IBVerbs n := fun p =>
    { verbs p with syncRequest := { (verbs p).syncRequest with remoteMsgs := 0 } }
  have programs : ∀ p, (verbs p).completeRequest =
      if withBarrier then .call .ibarrier fun _ => .done (taken p).finishRequest
      else .done (taken p).releaseRequest := by
    intro p
    unfold completeRequest
    rw [if_pos (active p), ← same p]
  rw [funext programs]
  cases withBarrier with
  | true =>
      exact ⟨[fun _ => .ibarrier], fun p => (taken p).finishRequest, fun p => rfl,
        Comm.executes_ibarrier (.of_done _), fun p => ⟨rfl, rfl, rfl, rfl, rfl, rfl⟩⟩
  | false =>
      exact ⟨[], fun p => (taken p).releaseRequest, fun p => rfl, .of_done _,
        fun p => ⟨rfl, rfl, rfl, rfl, rfl, rfl⟩⟩

/-- The reconnection that comes next meets no failure of the allocator or the device. -/
def Reconnects (verbs : IBVerbs n) : Prop :=
  (verbs.device.gid verbs.device.reconnects).isSome ∧
    verbs.device.exchangeFits verbs.device.reconnects = true ∧
    ∀ peer, verbs.device.modifyQp verbs.device.reconnects peer = true

/-- The number of a queue pair, if there is one. -/
def qpNums (qps : Fin n → Option Qp) (peer : Fin n) : Option ℕ := (qps peer).map Qp.qpNum

/-- The connected queue pairs are those that were staged. -/
structure Reconnected (before after : IBVerbs n) : Prop where
  connected : qpNums after.connectedQps = qpNums before.stagedQps
  staged : after.stagedQps = fun _ => none
  reconnects : after.device = { before.device with reconnects := before.device.reconnects + 1 }
  sameRequest : after.syncRequest = before.syncRequest
  sameCached : after.syncCached = before.syncCached
  sameMemreg : after.memreg = before.memreg

/-- A reconnection that fails leaves the connected and the staged queue pairs in place. -/
structure Interrupted (before after : IBVerbs n) : Prop where
  sameConnected : after.connectedQps = before.connectedQps
  sameStaged : qpNums after.stagedQps = qpNums before.stagedQps
  reconnects : after.device = { before.device with reconnects := before.device.reconnects + 1 }
  sameRequest : after.syncRequest = before.syncRequest
  sameCached : after.syncCached = before.syncCached
  sameMemreg : after.memreg = before.memreg

theorem connectPeers_eq (reconnect : ℕ) (remoteQpNums lids gids : Fin n → ℕ)
    (peers : List (Fin n)) (verbs : IBVerbs n) :
    (connectPeers reconnect remoteQpNums lids gids peers verbs).2 =
        peers.all (verbs.device.modifyQp reconnect) ∧
      (connectPeers reconnect remoteQpNums lids gids peers verbs).1 = { verbs with
        stagedQps := (connectPeers reconnect remoteQpNums lids gids peers verbs).1.stagedQps } ∧
      qpNums (connectPeers reconnect remoteQpNums lids gids peers verbs).1.stagedQps =
        qpNums verbs.stagedQps := by
  induction peers generalizing verbs with
  | nil => exact ⟨rfl, rfl, rfl⟩
  | cons peer peers ih =>
      unfold connectPeers
      split
      next modified =>
        rcases ih { verbs with
          stagedQps := Function.update verbs.stagedQps peer
            ((verbs.stagedQps peer).map fun qp =>
              { qp with remote := some (remoteQpNums peer, lids peer, gids peer) }) }
          with ⟨all, same, numbers⟩
        refine ⟨by simp [all, modified], by rw [same], numbers.trans (funext fun other => ?_)⟩
        by_cases at_ : other = peer
        · subst at_
          simp [qpNums, Function.comp_def]
        · simp [qpNums, Function.update_of_ne at_]
      next refused => exact ⟨by simp [refused], rfl, rfl⟩

/-- The state in which a reconnection begins. -/
def reconnecting (verbs : IBVerbs n) : IBVerbs n :=
  { verbs with device := { verbs.device with reconnects := verbs.device.reconnects + 1 } }

/-- The numbers that a process announces to its peers. -/
def localQpNums (verbs : IBVerbs n) (peer : Fin n) : ℕ :=
  ((verbs.stagedQps peer).map Qp.qpNum).getD 0

/-- Up to its first reduction, a reconnection with all pairs staged only depends on whether the
gid and the memory for the exchange are there. -/
theorem reconnectQPs_eq (pid : Fin n) {verbs : IBVerbs n} (staged : verbs.Staged) :
    ∃ (fits : Bool) (exn : Exn) (next : Bool → Comm n (IBVerbs n × Option Exn)),
      (fits = true ↔ (verbs.device.gid verbs.device.reconnects).isSome ∧
        verbs.device.exchangeFits verbs.device.reconnects = true) ∧
      reconnectQPs pid verbs = .call .barrier (fun _ => .call (.allreduceOr (!fits)) next) ∧
      next true = .done (verbs.reconnecting, some exn) ∧
      (fits = true → ∃ gid, next false =
        .call (.allToAll verbs.localQpNums) fun remoteQpNums =>
        .call (.allgatherLid verbs.device.lid) fun lids =>
        .call (.allgatherGid gid) fun gids =>
          verbs.reconnecting.connectQPs verbs.device.reconnects remoteQpNums lids gids) := by
  have first : ¬(verbs.stagedQps ⟨0, pid.pos⟩).isNone = true := by
    have := staged ⟨0, pid.pos⟩
    simp [Option.isNone_iff_eq_none, Option.isSome_iff_ne_none.mp this]
  cases found : verbs.device.gid verbs.device.reconnects with
  | none =>
      refine ⟨false, .exception, fun _ => .done (verbs.reconnecting, some .exception), by simp,
        ?_, rfl, fun impossible => by cases impossible⟩
      simp only [reconnectQPs, if_neg first, found]
      rfl
  | some gid =>
      cases room : verbs.device.exchangeFits verbs.device.reconnects with
      | false =>
          refine ⟨false, .badAlloc, fun _ => .done (verbs.reconnecting, some .badAlloc), by simp,
            ?_, rfl, fun impossible => by cases impossible⟩
          simp only [reconnectQPs, if_neg first, found, room, Bool.false_eq_true, if_false]
          rfl
      | true =>
          refine ⟨true, .exception, fun failed =>
            if failed then .done (verbs.reconnecting, some .exception)
            else
              .call (.allToAll verbs.localQpNums) fun remoteQpNums =>
              .call (.allgatherLid verbs.device.lid) fun lids =>
              .call (.allgatherGid gid) fun gids =>
                verbs.reconnecting.connectQPs verbs.device.reconnects remoteQpNums lids gids,
            by simp, ?_, rfl, fun _ => ⟨gid, rfl⟩⟩
          simp only [reconnectQPs, if_neg first, found, room, if_true]
          refine congrArg _ (funext fun _ => ?_)
          exact (if_pos staged).trans rfl

/-- After the exchange of addresses, whether a process gets its pairs connected is its last word. -/
theorem connectQPs_eq (verbs : IBVerbs n) (reconnect : ℕ) (remoteQpNums lids gids : Fin n → ℕ) :
    ∃ (connected : Bool) (reached : IBVerbs n)
      (next : Bool → Comm n (IBVerbs n × Option Exn)),
      (connected = true ↔ ∀ peer, verbs.device.modifyQp reconnect peer = true) ∧
      reached = { verbs with stagedQps := reached.stagedQps } ∧
      qpNums reached.stagedQps = qpNums verbs.stagedQps ∧
      verbs.connectQPs reconnect remoteQpNums lids gids = .call (.allreduceOr (!connected)) next ∧
      next true = .done (reached, some .exception) ∧
      (connected = true → next false = .call .barrier fun _ => .done (reached.swapQps, none)) := by
  have spec := connectPeers_eq reconnect remoteQpNums lids gids (List.finRange n) verbs
  unfold connectQPs
  generalize connectPeers reconnect remoteQpNums lids gids (List.finRange n) verbs = outcome
    at spec ⊢
  rcases outcome with ⟨reached, connected⟩
  rcases spec with ⟨all, same, numbers⟩
  simp only at all same numbers
  have decides : connected = true ↔ ∀ peer, verbs.device.modifyQp reconnect peer = true := by
    rw [all]
    simp
  cases connected with
  | true =>
      exact ⟨true, reached, fun failed =>
        if failed then .done (reached, some .exception)
        else .call .barrier fun _ => .done (reached.swapQps, none),
        decides, same, numbers, rfl, rfl, fun _ => rfl⟩
  | false =>
      exact ⟨false, reached, fun _ => .done (reached, some .exception), decides, same, numbers, rfl,
        rfl, fun impossible => by cases impossible⟩

/-- The collectives of a reconnection. -/
def reconnectKinds : List CollectiveKind :=
  [.barrier, .allreduceOr, .allToAll, .allgatherLid, .allgatherGid, .allreduceOr, .barrier]

/-- With queue pairs staged for all peers at all processes, the processes reconnect together, or
all of them are told of a failure. -/
theorem reconnectQPs_executes (staged : ∀ p, (verbs p).Staged) :
    (∃ (rounds : List (Fin n → Collective n)) (after : Fin n → IBVerbs n),
      (∀ p, (verbs p).Reconnects) ∧ (∀ p, Collective.kinds p rounds = reconnectKinds) ∧
      Executes (fun p => reconnectQPs p (verbs p)) rounds (fun p => (after p, none)) ∧
      ∀ p, Reconnected (verbs p) (after p)) ∨
    ∃ (rounds : List (Fin n → Collective n)) (after : Fin n → IBVerbs n) (thrown : Fin n → Exn),
      (¬∀ p, (verbs p).Reconnects) ∧
      Executes (fun p => reconnectQPs p (verbs p)) rounds (fun p => (after p, some (thrown p))) ∧
      ∀ p, Interrupted (verbs p) (after p) := by
  choose fits exn next fitsIff begins failed goesOn using fun p => reconnectQPs_eq p (staged p)
  rw [funext begins]
  by_cases allFit : ∀ p, fits p = true
  · choose gid exchanges using fun p => goesOn p (allFit p)
    have heard : decide (∃ q, (!fits q) = true) = false := by simp [allFit]
    let remoteQpNums : Fin n → Fin n → ℕ := fun p q => (verbs q).localQpNums p
    let lids : Fin n → ℕ := fun q => (verbs q).device.lid
    choose connected reached last connects same numbers ends lastFailed lastBarrier using
      fun p => (verbs p).reconnecting.connectQPs_eq (verbs p).device.reconnects (remoteQpNums p)
        lids gid
    -- both outcomes share the rounds up to the last reduction
    have exchange : ∀ {rounds : List (Fin n → Collective n)}
        {values : Fin n → IBVerbs n × Option Exn},
        Executes (fun p => last p (decide (∃ q, (!connected q) = true))) rounds values →
        ∃ before : List (Fin n → Collective n),
          (∀ p, Collective.kinds p before = [.barrier, .allreduceOr, .allToAll, .allgatherLid,
            .allgatherGid, .allreduceOr]) ∧
          Executes (fun p => (.call .barrier fun _ => .call (.allreduceOr (!fits p)) (next p) :
            Comm n (IBVerbs n × Option Exn))) (before ++ rounds) values := by
      intro rounds values rest
      have reduced := Comm.executes_allreduceOr rest
      simp only [← ends] at reduced
      have gathered : Executes (fun p => (.call (.allToAll (verbs p).localQpNums)
          fun remoteQpNums => .call (.allgatherLid (verbs p).device.lid) fun lids =>
          .call (.allgatherGid (gid p)) fun gids => (verbs p).reconnecting.connectQPs
            (verbs p).device.reconnects remoteQpNums lids gids : Comm n _)) (_ :: _ :: _ :: _) _ :=
        Comm.executes_allToAll (Comm.executes_allgatherLid (Comm.executes_allgatherGid reduced))
      simp only [← exchanges] at gathered
      rw [← heard] at gathered
      exact ⟨[_, _, _, _, _, _], fun p => rfl,
        Comm.executes_barrier (Comm.executes_allreduceOr gathered)⟩
    by_cases allConnected : ∀ p, connected p = true
    · left
      have told : decide (∃ q, (!connected q) = true) = false := by simp [allConnected]
      have rest : Executes (fun p => last p (decide (∃ q, (!connected q) = true)))
          [fun _ => .barrier] (fun p => ((reached p).swapQps, none)) := by
        simp only [told, fun p => lastBarrier p (allConnected p)]
        exact Comm.executes_barrier (.of_done _)
      rcases exchange rest with ⟨before, beforeKinds, execution⟩
      refine ⟨_, fun p => (reached p).swapQps, fun p => ?_, fun p => ?_, execution, fun p => ?_⟩
      · exact ⟨((fitsIff p).mp (allFit p)).1, ((fitsIff p).mp (allFit p)).2,
          (connects p).mp (allConnected p)⟩
      · rw [Collective.kinds_append, beforeKinds p]
        rfl
      · have devices := congrArg device (same p)
        have request := congrArg syncRequest (same p)
        have cached := congrArg syncCached (same p)
        have slots := congrArg memreg (same p)
        exact ⟨numbers p, rfl, devices, request, cached, slots⟩
    · right
      rcases not_forall.mp allConnected with ⟨someone, unconnected⟩
      have told : decide (∃ q, (!connected q) = true) = true := by
        simp only [decide_eq_true_eq]
        exact ⟨someone, by simp [Bool.eq_false_iff.mpr unconnected]⟩
      have rest : Executes (fun p => last p (decide (∃ q, (!connected q) = true))) []
          (fun p => (reached p, some .exception)) := by
        simp only [told, lastFailed]
        exact .of_done _
      rcases exchange rest with ⟨before, _, execution⟩
      refine ⟨_, reached, fun _ => .exception, fun all => ?_, execution, fun p => ?_⟩
      · exact unconnected ((connects someone).mpr (all someone).2.2)
      · have kept := congrArg connectedQps (same p)
        have devices := congrArg device (same p)
        have request := congrArg syncRequest (same p)
        have cached := congrArg syncCached (same p)
        have slots := congrArg memreg (same p)
        exact ⟨kept, numbers p, devices, request, cached, slots⟩
  · rcases not_forall.mp allFit with ⟨someone, unfit⟩
    have heard : decide (∃ q, (!fits q) = true) = true := by
      simp only [decide_eq_true_eq]
      exact ⟨someone, by simp [Bool.eq_false_iff.mpr unfit]⟩
    have rest : Executes (fun p => next p (decide (∃ q, (!fits q) = true))) []
        (fun p => ((verbs p).reconnecting, some (exn p))) := by
      simp only [heard, failed]
      exact .of_done _
    refine Or.inr ⟨_, fun p => (verbs p).reconnecting, exn, fun all => ?_,
      Comm.executes_barrier (Comm.executes_allreduceOr rest),
      fun p => ⟨rfl, rfl, rfl, rfl, rfl, rfl⟩⟩
    exact unfit ((fitsIff someone).mpr ⟨(all someone).1, (all someone).2.1⟩)

section Vote

variable (task : Fin n → Task) {vote : Fin n → Int × Int} {attr : SyncAttr}

/-- An abort by any process ends the sync of all of them. -/
theorem sync_executes_aborted (verbs : Fin n → IBVerbs n) (mode : attr.mode = .default)
    (aborts : ∑ q, (vote q).1 ≠ 0) :
    ∃ rounds, (∀ p, Collective.kinds p rounds = [.iallreduceSum]) ∧
      Executes (fun p => sync p (task p) (verbs p) (vote p) attr) rounds
        (fun p => (verbs p, .ok (∑ q, (vote q).1))) := by
  refine ⟨[fun p => .iallreduceSum (vote p)], fun p => rfl, ?_⟩
  simp only [sync, mode, if_true]
  refine Comm.executes_iallreduceSum ?_
  simp only [if_pos aborts]
  exact .of_done _

/-- Without aborts and resizes the superstep ends after the vote. -/
theorem sync_executes_voted (mode : attr.mode = .default) (aborts : ∑ q, (vote q).1 = 0)
    (resizes : ¬∑ q, (vote q).2 > 0) (idle : ∀ p, (verbs p).syncRequest.isActive = false) :
    ∃ (rounds : List (Fin n → Collective n)) (after : Fin n → IBVerbs n),
      (∀ p, Collective.kinds p rounds = .iallreduceSum :: List.replicate n .allreduceSum) ∧
      Executes (fun p => sync p (task p) (verbs p) (vote p) attr) rounds
        (fun p => (after p, .ok (vote p).1)) ∧
      ∀ p, Requested attr (verbs p) (after p) := by
  rcases syncCounts_executes attr task (fun p => (vote p).1)
    (fun cached => by rw [mode] at cached; cases cached) idle with
    ⟨rounds, after, roundKinds, execution, requested⟩
  refine ⟨(fun p => .iallreduceSum (vote p)) :: rounds, after, fun p => ?_, ?_, requested⟩
  · rw [Collective.kinds_cons, roundKinds p, mode]
    rfl
  · simp only [sync, mode, if_true]
    refine Comm.executes_iallreduceSum ?_
    simpa only [aborts, ne_eq, not_true_eq_false, if_false, if_neg resizes] using execution

/-- A sync in another mode does not vote. -/
theorem sync_executes_silent (mode : attr.mode ≠ .default)
    (agree : ∀ p q, (verbs p).syncCached = (verbs q).syncCached)
    (idle : ∀ p, (verbs p).syncRequest.isActive = false) :
    ∃ (rounds : List (Fin n → Collective n)) (after : Fin n → IBVerbs n),
      (∀ p, Collective.kinds p rounds = countKinds n attr.mode (verbs p).syncCached) ∧
      Executes (fun p => sync p (task p) (verbs p) (vote p) attr) rounds
        (fun p => (after p, .ok (vote p).1)) ∧
      ∀ p, Requested attr (verbs p) (after p) := by
  simp only [sync, if_neg mode]
  exact syncCounts_executes attr task (fun p => (vote p).1) (fun _ => agree) idle

/-- A vote for a resize is followed by a reconnection. -/
theorem sync_executes_reconnecting (mode : attr.mode = .default) (aborts : ∑ q, (vote q).1 = 0)
    (resizes : ∑ q, (vote q).2 > 0) {rounds : List (Fin n → Collective n)}
    {values : Fin n → IBVerbs n × Except Exn Int}
    (rest : Executes (fun p => (reconnectQPs p (verbs p)).bind fun (verbs, thrown) =>
      match thrown with
      | none => syncCounts p (task p) verbs (vote p).1 attr
      | some exn => .done (verbs, .error exn)) rounds values) :
    Executes (fun p => sync p (task p) (verbs p) (vote p) attr)
      ((fun p => .iallreduceSum (vote p)) :: rounds) values := by
  simp only [sync, mode, if_true]
  refine Comm.executes_iallreduceSum ?_
  simp only [aborts, ne_eq, not_true_eq_false, if_false, if_pos resizes]
  exact rest

/-- A resize by any process makes all of them reconnect before the superstep ends; if that fails,
all of them are told. -/
theorem sync_executes_resized (mode : attr.mode = .default) (aborts : ∑ q, (vote q).1 = 0)
    (resizes : ∑ q, (vote q).2 > 0) (idle : ∀ p, (verbs p).syncRequest.isActive = false)
    (staged : ∀ p, (verbs p).Staged) :
    (∃ (rounds : List (Fin n → Collective n)) (middle after : Fin n → IBVerbs n),
      (∀ p, (verbs p).Reconnects) ∧
      (∀ p, Collective.kinds p rounds =
        .iallreduceSum :: (reconnectKinds ++ List.replicate n .allreduceSum)) ∧
      Executes (fun p => sync p (task p) (verbs p) (vote p) attr) rounds
        (fun p => (after p, .ok (vote p).1)) ∧
      ∀ p, Reconnected (verbs p) (middle p) ∧ Requested attr (middle p) (after p)) ∨
    ∃ (rounds : List (Fin n → Collective n)) (after : Fin n → IBVerbs n) (thrown : Fin n → Exn),
      (¬∀ p, (verbs p).Reconnects) ∧
      Executes (fun p => sync p (task p) (verbs p) (vote p) attr) rounds
        (fun p => (after p, .error (thrown p))) ∧
      ∀ p, Interrupted (verbs p) (after p) := by
  rcases reconnectQPs_executes staged with
    ⟨first, middle, reconnects, firstKinds, head, reconnected⟩ |
    ⟨first, middle, thrown, refused, head, interrupted⟩
  · left
    have idleMiddle : ∀ p, (middle p).syncRequest.isActive = false := fun p => by
      rw [(reconnected p).sameRequest]
      exact idle p
    rcases syncCounts_executes attr task (fun p => (vote p).1)
      (fun cached => by rw [mode] at cached; cases cached) idleMiddle with
      ⟨second, after, secondKinds, tail, requested⟩
    refine ⟨_, middle, after, reconnects, fun p => ?_,
      sync_executes_reconnecting task mode aborts resizes (head.bind tail),
      fun p => ⟨reconnected p, requested p⟩⟩
    rw [Collective.kinds_cons, Collective.kinds_append, firstKinds p, secondKinds p, mode]
    rfl
  · right
    exact ⟨_, middle, thrown, refused,
      sync_executes_reconnecting task mode aborts resizes (head.bind (.of_done _)), interrupted⟩

/-- A process that has staged nothing faults when it is made to reconnect. -/
theorem not_executes_sync_unstaged {α : Type} (mode : attr.mode = .default)
    (aborts : ∑ q, (vote q).1 = 0) (resizes : ∑ q, (vote q).2 > 0) {p : Fin n}
    (unstaged : (verbs p).stagedQps ⟨0, p.pos⟩ = none)
    {nexts : Fin n → IBVerbs n × Except Exn Int → Comm n α}
    {rounds : List (Fin n → Collective n)} {values : Fin n → α} :
    ¬Executes (fun p => (sync p (task p) (verbs p) (vote p) attr).bind (nexts p))
      rounds values := by
  intro execution
  have : Nonempty (Fin n) := ⟨p⟩
  simp only [sync, mode, if_true, Program.call_bind] at execution
  rcases Executes.call_iff.mp execution with ⟨_, later, _, rest⟩
  refine Executes.not_of_fault p ?_ rest
  have outcome : Collective.outcome (fun q => .iallreduceSum (vote q)) p
      (.iallreduceSum (vote p)) = ((∑ q, (vote q).1, ∑ q, (vote q).2) : Int × Int) := rfl
  simp only [outcome, aborts, ne_eq, not_true_eq_false, if_false, if_pos resizes, reconnectQPs,
    unstaged, Option.isNone_none, if_true, Program.fault_bind]

end Vote

end IBVerbs

end Talpf
