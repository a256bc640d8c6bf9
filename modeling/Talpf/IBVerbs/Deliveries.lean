import Talpf.IBVerbs.Counters
import Talpf.IBVerbs.SuperstepTags
import Mathlib.Algebra.BigOperators.Group.Finset.Piecewise
import Mathlib.Algebra.Order.Sub.Basic
import Mathlib.Data.Multiset.OrderedMonoid

/-!
# Deliveries

The ring of a process adds up the notifications of all its peers.  This file
follows them from the issuer's log over the fabric into the ring.  In a run in
which nothing is posted for a superstep that its receiver has counted, and no
notification arrives 1024 supersteps early, an entry of the ring never mixes two
supersteps, and every sync counts exactly the messages of its superstep.
-/

namespace Talpf

namespace IBVerbs

variable {n : ℕ}

/-- A batch of notifications is counted, each in the entry of its tag. -/
theorem recvCounts_batch (verbs : IBVerbs n) (immData : List (BitVec 32)) (entry : Fin 1024) :
    (verbs.doRemoteProgress immData).recvCounts entry =
      verbs.recvCounts entry + immData.countP fun tag => recvIndex tag = entry := by
  rw [doRemoteProgress]
  induction immData generalizing verbs with
  | nil => exact (Int.add_zero _).symm
  | cons first rest ih =>
      rw [List.foldl_cons, ih, List.countP_cons, countRecv]
      dsimp only
      rw [Function.update_apply]
      by_cases here : recvIndex first = entry
      · simp only [here, if_true, decide_true]
        push_cast
        omega
      · simp only [here, Ne.symm here, if_false, decide_false, Bool.false_eq_true, Nat.add_zero]

/-- The entry of the tag of a superstep -/
theorem recvIndex_ofNat (superstep : ℕ) :
    (recvIndex (BitVec.ofNat 32 superstep)).val = superstep % 1024 := by
  have tag : (recvIndex (BitVec.ofNat 32 superstep)).val =
      (BitVec.ofNat 32 superstep).toNat % 1024 := rfl
  rw [tag, BitVec.toNat_ofNat]
  exact Nat.mod_mod_of_dvd superstep ⟨2 ^ 22, rfl⟩

/-- The entry that a process looks at, if there is one, is that of its superstep. -/
theorem syncIndex_of_superstep {verbs : IBVerbs n} {superstep : ℕ}
    (counter : verbs.syncCounter = BitVec.ofNat 32 superstep) {entry : Fin 1024}
    (index : verbs.syncIndex = some entry) : entry.val = superstep % 1024 := by
  have reduced : verbs.syncCounter.toNat % 1024 = superstep % 1024 := by
    rw [counter, BitVec.toNat_ofNat]
    exact Nat.mod_mod_of_dvd superstep ⟨2 ^ 22, rfl⟩
  have value : verbs.syncIndex.map Fin.val = some entry.val := congrArg (Option.map Fin.val) index
  by_cases small : verbs.syncCounter.toNat < 2 ^ 31
  · rw [syncIndex_of_nonneg small, reduced] at value
    exact (Option.some.inj value).symm
  · rw [syncIndex_of_neg (Nat.le_of_not_lt small)] at value
    split at value
    next divides =>
      rw [← Option.some.inj value, ← reduced, divides]
    next => cases value

namespace Party

/-- How many supersteps a process has counted the messages of. -/
def taken (party : Party n) : ℕ :=
  party.superstep + if party.verbs.syncRequest.secondPhase then 1 else 0

/-- Only an active request with a barrier is ever in its second phase. -/
def Phased (party : Party n) : Prop :=
  party.verbs.syncRequest.secondPhase = true →
    party.verbs.syncRequest.isActive = true ∧ party.verbs.syncRequest.withBarrier = true

/-- The next look at the request counts its messages. -/
def Counts (party : Party n) (entry : Fin 1024) : Prop :=
  party.verbs.syncRequest.isActive = true ∧
    ¬(party.verbs.syncRequest.withBarrier = true ∧ party.verbs.syncRequest.secondPhase = true) ∧
    party.verbs.syncIndex = some entry ∧
    party.verbs.syncRequest.remoteMsgs ≤ party.verbs.recvCounts entry

variable {party after : Party n}

theorem Phased.first (phased : party.Phased)
    (first : ¬(party.verbs.syncRequest.withBarrier = true ∧
      party.verbs.syncRequest.secondPhase = true)) :
    party.verbs.syncRequest.secondPhase = false := by
  rw [← Bool.not_eq_true]
  intro second
  exact first ⟨(phased second).2, second⟩

theorem Phased.taken_of_counts (phased : party.Phased) {entry : Fin 1024}
    (counts : party.Counts entry) : party.taken = party.superstep := by
  rw [taken, phased.first counts.2.1]
  rfl

/-- What a process does to its ring and to the number of supersteps that it has counted. -/
inductive Turns (party : Party n) (p : Fin n) : World.Action n → Party n → Prop where
  | keeps {action : World.Action n} {after : Party n}
      (recvCounts : after.verbs.recvCounts = party.verbs.recvCounts)
      (taken : after.taken = party.taken) : Turns party p action after
  | receives (wcs : List (Posted n)) {after : Party n}
      (recvCounts : after.verbs.recvCounts =
        (party.verbs.doRemoteProgress (wcs.map Posted.immData)).recvCounts)
      (taken : after.taken = party.taken) : Turns party p (.remoteProgress p wcs) after
  | counts {flag : Bool} {entry : Fin 1024} {after : Party n} (counts : party.Counts entry)
      (recvCounts : after.verbs.recvCounts = (party.verbs.takeRecvs entry).recvCounts)
      (taken : after.taken = party.taken + 1) :
      Turns party p (.processSyncRequest p flag) after

theorem frame_readCounts (party : Party n) (task : Task) (attr : SyncAttr) :
    (party.readCounts task attr).verbs.recvCounts = party.verbs.recvCounts ∧
      (party.readCounts task attr).taken = party.taken ∧
      (party.readCounts task attr).verbs.syncRequest = party.verbs.syncRequest ∧
      (party.readCounts task attr).superstep = party.superstep := by
  rw [Party.readCounts]
  cases attr.mode with
  | cached =>
      dsimp only
      split <;> exact ⟨rfl, rfl, rfl, rfl⟩
  | default => exact ⟨rfl, rfl, rfl, rfl⟩
  | msg => exact ⟨rfl, rfl, rfl, rfl⟩
  | unknown => exact ⟨rfl, rfl, rfl, rfl⟩

/-- What a look at the request makes of the process. -/
theorem processSyncRequest_eq {flag : Bool} {p : Fin n}
    (active : party.verbs.syncRequest.isActive = true) (phased : party.Phased)
    (processed : party.processSyncRequest flag = some after) :
    after.Phased ∧ party.Turns p (.processSyncRequest p flag) after := by
  rw [Party.processSyncRequest] at processed
  rcases look_cases party.verbs flag with waits | faults | ⟨⟨_, second⟩, finishes⟩ |
    ⟨entry, first, index, enough, ⟨barrier, starts⟩ | ⟨barrier, releases⟩⟩
  · rw [waits, Option.some.injEq] at processed
    rw [← processed]
    exact ⟨phased, .keeps rfl rfl⟩
  · rw [faults] at processed
    cases processed
  · rw [finishes, Option.some.injEq] at processed
    subst processed
    refine ⟨fun second => absurd second Bool.false_ne_true, .keeps rfl ?_⟩
    rw [taken, taken, second]
    rfl
  · rw [starts, Option.some.injEq] at processed
    subst processed
    refine ⟨fun _ => ⟨active, barrier⟩, .counts ⟨active, first, index, enough⟩ rfl ?_⟩
    rw [taken, taken, phased.first first]
    rfl
  · rw [releases, Option.some.injEq] at processed
    subst processed
    have isFirst := phased.first first
    refine ⟨fun second => ?_, .counts ⟨active, first, index, enough⟩ rfl ?_⟩
    · exact absurd (second.symm.trans isFirst) (by decide)
    · rw [taken, taken]
      show party.superstep + 1 + (if party.verbs.syncRequest.secondPhase then 1 else 0) = _
      rw [isFirst]
      rfl

theorem Moves.turns {p : Fin n} {action : World.Action n} (moves : party.Moves p action after)
    (phased : party.Phased) : after.Phased ∧ party.Turns p action after := by
  cases moves with
  | stays => exact ⟨phased, .keeps rfl rfl⟩
  | post task kind peer =>
      have same : (kind.post party.verbs peer).syncRequest = party.verbs.syncRequest ∧
          (kind.post party.verbs peer).recvCounts = party.verbs.recvCounts := by
        rw [OperationKind.post_eq]
        exact ⟨rfl, rfl⟩
      refine ⟨?_, .keeps same.2 ?_⟩
      · simpa only [Phased, Party.post, same.1] using phased
      · simp only [taken, Party.post, same.1]
  | complete first => exact ⟨phased, .keeps rfl rfl⟩
  | localProgress polled => exact ⟨phased, .keeps rfl rfl⟩
  | remoteProgress wcs =>
      refine ⟨?_, .receives wcs rfl ?_⟩
      · rw [doRemoteProgress_eq]
        exact phased
      · rw [doRemoteProgress_eq]
        rfl
  | drain idle task attr => exact ⟨phased, .keeps rfl rfl⟩
  | @readCounts task attr drained =>
      rcases frame_readCounts party task attr with ⟨recvCounts, taken, syncRequest, _⟩
      refine ⟨?_, .keeps recvCounts taken⟩
      rw [Phased, syncRequest]
      exact phased
  | exchange counted remoteMsgs => exact ⟨phased, .keeps rfl rfl⟩
  | request ready accepted =>
      rcases Option.map_eq_some_iff.mp accepted with ⟨verbs, requests, rfl⟩
      rw [requestSync] at requests
      split at requests
      next => cases requests
      next inactive =>
        rw [Option.some.injEq] at requests
        subst requests
        exact ⟨fun second => absurd (phased second).1 inactive, .keeps rfl rfl⟩
  | processSyncRequest active processed => exact processSyncRequest_eq active phased processed

/-- The request of a process, its superstep and what is left in the ring after a look at it. -/
theorem look_effect {flag : Bool} (active : party.verbs.syncRequest.isActive = true)
    (processed : party.processSyncRequest flag = some after) :
    after = party ∨
      (after.superstep = party.superstep ∧ after.verbs.syncRequest.secondPhase = true) ∨
      (after.superstep = party.superstep + 1 ∧ after.verbs.syncRequest.isActive = false ∧
        ((party.verbs.syncRequest.withBarrier = true ∧
            party.verbs.syncRequest.secondPhase = true) ∨
          ∃ entry, party.Counts entry ∧
            after.verbs.recvCounts = (party.verbs.takeRecvs entry).recvCounts)) := by
  rw [Party.processSyncRequest] at processed
  rcases look_cases party.verbs flag with waits | faults | ⟨second, finishes⟩ |
    ⟨entry, first, index, enough, ⟨_, starts⟩ | ⟨_, releases⟩⟩
  · rw [waits, Option.some.injEq] at processed
    exact Or.inl processed.symm
  · rw [faults] at processed
    cases processed
  · rw [finishes, Option.some.injEq] at processed
    subst processed
    exact Or.inr (Or.inr ⟨rfl, rfl, Or.inl second⟩)
  · rw [starts, Option.some.injEq] at processed
    subst processed
    exact Or.inr (Or.inl ⟨rfl, rfl⟩)
  · rw [releases, Option.some.injEq] at processed
    subst processed
    exact Or.inr (Or.inr ⟨rfl, rfl, Or.inr ⟨entry, ⟨active, first, index, enough⟩, rfl⟩⟩)

/-- Where the request of a process comes from. -/
theorem Moves.request_cases {p : Fin n} {action : World.Action n}
    (moves : party.Moves p action after) :
    (after.verbs.syncRequest = party.verbs.syncRequest ∧ after.superstep = party.superstep) ∨
      (∃ task barrier remoteMsgs, action = .request p ∧
        party.phase = .ready task barrier remoteMsgs ∧ after.phase = .idle ∧
        after.superstep = party.superstep ∧ party.verbs.syncRequest.isActive = false ∧
        after.verbs.syncRequest = { party.verbs.syncRequest with
          withBarrier := barrier
          remoteMsgs := remoteMsgs
          task := some task
          isActive := true }) ∨
      after.verbs.syncRequest.secondPhase = true ∨ after.verbs.syncRequest.isActive = false := by
  cases moves with
  | post task kind peer =>
      left
      rw [Party.post, OperationKind.post_eq]
      exact ⟨rfl, rfl⟩
  | remoteProgress wcs =>
      left
      rw [doRemoteProgress_eq]
      exact ⟨rfl, rfl⟩
  | @readCounts task attr drained =>
      exact Or.inl (frame_readCounts party task attr).2.2
  | @request task barrier remoteMsgs ready _ accepted =>
      rcases Option.map_eq_some_iff.mp accepted with ⟨verbs, requests, rfl⟩
      rw [requestSync] at requests
      split at requests
      next => cases requests
      next inactive =>
        rw [Option.some.injEq] at requests
        subst requests
        exact Or.inr (Or.inl ⟨task, barrier, remoteMsgs, rfl, ready, rfl, rfl,
          Bool.not_eq_true _ ▸ inactive, rfl⟩)
  | processSyncRequest active processed =>
      rcases look_effect active processed with rfl | ⟨_, second⟩ | ⟨_, inactive, _⟩
      · exact Or.inl ⟨rfl, rfl⟩
      · exact Or.inr (Or.inr (Or.inl second))
      · exact Or.inr (Or.inr (Or.inr inactive))
  | _ => exact Or.inl ⟨rfl, rfl⟩

/-- A look at the request leaves the phase of the sync as it is. -/
theorem phase_processSyncRequest {flag : Bool}
    (processed : party.processSyncRequest flag = some after) : after.phase = party.phase := by
  rw [processSyncRequest] at processed
  split at processed
  next => cases processed; rfl
  next => cases processed; rfl
  next => cases processed; rfl
  next => cases processed

/-- Only a look at the request ends a superstep. -/
theorem Moves.superstep_cases {p : Fin n} {action : World.Action n}
    (moves : party.Moves p action after) : after.superstep = party.superstep ∨
      ∃ flag, action = .processSyncRequest p flag ∧
        party.verbs.syncRequest.isActive = true ∧ party.processSyncRequest flag = some after := by
  cases moves with
  | readCounts drained => exact Or.inl (frame_readCounts party _ _).2.2.2
  | request _ accepted =>
      rcases Option.map_eq_some_iff.mp accepted with ⟨_, _, rfl⟩
      exact Or.inl rfl
  | processSyncRequest active processed => exact Or.inr ⟨_, rfl, active, processed⟩
  | _ => exact Or.inl rfl

/-- Where the number of messages that a sync is to wait for comes from. -/
theorem Moves.ready_cases {p : Fin n} {action : World.Action n}
    (moves : party.Moves p action after) {task : Task} {barrier : Bool} {remoteMsgs : Int}
    (ready : after.phase = .ready task barrier remoteMsgs) :
    (party.phase = .ready task barrier remoteMsgs ∧ after.epoch = party.epoch) ∨
      (∃ itsTask attr, party.phase = .drained itsTask attr ∧ action = .readCounts p ∧
        after = party.readCounts itsTask attr) ∨
      ∃ itsTask attr counts, party.phase = .counted itsTask attr counts ∧ action = .exchange ∧
        after = party.exchanged itsTask attr remoteMsgs := by
  cases moves with
  | drain idle task attr => cases ready
  | @readCounts itsTask attr drained =>
      exact Or.inr (Or.inl ⟨itsTask, attr, drained, rfl, rfl⟩)
  | @exchange itsTask attr counts counted told =>
      cases ready
      exact Or.inr (Or.inr ⟨task, attr, counts, counted, rfl, rfl⟩)
  | request _ accepted =>
      rcases Option.map_eq_some_iff.mp accepted with ⟨_, _, rfl⟩
      cases ready
  | processSyncRequest active processed =>
      rw [phase_processSyncRequest processed] at ready
      exact Or.inl ⟨ready, (frame_processSyncRequest processed).1⟩
  | _ => exact Or.inl ⟨ready, rfl⟩

/-- The sync under way and the active request have a barrier, or both have none. -/
structure WithBarrier (party : Party n) (barrier : Bool) : Prop where
  drained : ∀ task attr, party.phase = .drained task attr → attr.barrier = barrier
  counted : ∀ task attr counts, party.phase = .counted task attr counts → attr.barrier = barrier
  ready : ∀ task itsBarrier remoteMsgs, party.phase = .ready task itsBarrier remoteMsgs →
    itsBarrier = barrier
  request : party.verbs.syncRequest.isActive = true →
    party.verbs.syncRequest.withBarrier = barrier

namespace WithBarrier

variable {barrier : Bool} {task : Task} {attr : SyncAttr}

theorem of_idle (idle : party.phase = .idle)
    (request : party.verbs.syncRequest.isActive = true →
      party.verbs.syncRequest.withBarrier = barrier) : party.WithBarrier barrier where
  drained := by
    intro _ _ phase
    cases idle.symm.trans phase
  counted := by
    intro _ _ _ phase
    cases idle.symm.trans phase
  ready := by
    intro _ _ _ phase
    cases idle.symm.trans phase
  request := request

theorem of_drained (drained : party.phase = .drained task attr) (its : attr.barrier = barrier)
    (request : party.verbs.syncRequest.isActive = true →
      party.verbs.syncRequest.withBarrier = barrier) : party.WithBarrier barrier where
  drained := by
    intro _ _ phase
    cases drained.symm.trans phase
    exact its
  counted := by
    intro _ _ _ phase
    cases drained.symm.trans phase
  ready := by
    intro _ _ _ phase
    cases drained.symm.trans phase
  request := request

theorem of_counted {counts : Fin n → Int} (counted : party.phase = .counted task attr counts)
    (its : attr.barrier = barrier) (request : party.verbs.syncRequest.isActive = true →
      party.verbs.syncRequest.withBarrier = barrier) : party.WithBarrier barrier where
  drained := by
    intro _ _ phase
    cases counted.symm.trans phase
  counted := by
    intro _ _ _ phase
    cases counted.symm.trans phase
    exact its
  ready := by
    intro _ _ _ phase
    cases counted.symm.trans phase
  request := request

theorem of_ready {itsBarrier : Bool} {remoteMsgs : Int}
    (ready : party.phase = .ready task itsBarrier remoteMsgs) (its : itsBarrier = barrier)
    (request : party.verbs.syncRequest.isActive = true →
      party.verbs.syncRequest.withBarrier = barrier) : party.WithBarrier barrier where
  drained := by
    intro _ _ phase
    cases ready.symm.trans phase
  counted := by
    intro _ _ _ phase
    cases ready.symm.trans phase
  ready := by
    intro _ _ _ phase
    cases ready.symm.trans phase
    exact its
  request := request

end WithBarrier

theorem Moves.withBarrier {p : Fin n} {action : World.Action n} {barrier : Bool}
    (moves : party.Moves p action after) (same : party.WithBarrier barrier)
    (next : ∀ task attr, action = .drain p task attr → attr.barrier = barrier) :
    after.WithBarrier barrier := by
  cases moves with
  | post task kind peer =>
      refine ⟨same.drained, same.counted, same.ready, ?_⟩
      rw [Party.post, OperationKind.post_eq]
      exact same.request
  | remoteProgress wcs =>
      rw [doRemoteProgress_eq]
      exact ⟨same.drained, same.counted, same.ready, same.request⟩
  | drain idle task attr => exact .of_drained rfl (next task attr rfl) same.request
  | @readCounts task attr drained =>
      have its := same.drained task attr drained
      rw [Party.readCounts]
      split
      · split
        · exact .of_ready rfl its same.request
        · exact .of_counted rfl its same.request
      · exact .of_counted rfl its same.request
      · exact .of_ready rfl its same.request
      · exact .of_ready rfl its same.request
  | @exchange task attr counts counted remoteMsgs =>
      exact .of_ready rfl (same.counted task attr counts counted) same.request
  | @request task itsBarrier remoteMsgs ready _ accepted =>
      rcases Option.map_eq_some_iff.mp accepted with ⟨verbs, requests, rfl⟩
      rw [requestSync] at requests
      split at requests
      next => cases requests
      next =>
        rw [Option.some.injEq] at requests
        subst requests
        exact .of_idle rfl fun _ => same.ready task itsBarrier remoteMsgs ready
  | processSyncRequest active processed =>
      rename_i flag
      rw [Party.processSyncRequest] at processed
      rcases look_cases party.verbs flag with waits | faults | ⟨_, finishes⟩ |
        ⟨_, _, _, _, ⟨_, starts⟩ | ⟨_, releases⟩⟩
      · rw [waits, Option.some.injEq] at processed
        exact processed ▸ same
      · rw [faults] at processed
        cases processed
      · rw [finishes, Option.some.injEq] at processed
        subst processed
        exact ⟨same.drained, same.counted, same.ready,
          fun active => absurd active Bool.false_ne_true⟩
      · rw [starts, Option.some.injEq] at processed
        subst processed
        exact ⟨same.drained, same.counted, same.ready, same.request⟩
      · rw [releases, Option.some.injEq] at processed
        subst processed
        exact ⟨same.drained, same.counted, same.ready,
          fun active => absurd active Bool.false_ne_true⟩
  | _ => exact ⟨same.drained, same.counted, same.ready, same.request⟩

end Party

namespace World

/-- If all syncs of a run have a barrier, or none has one, so do the requests. -/
theorem Reachable.withBarrier {devices : Fin n → Device n}
    {permitted : World n → Action n → Prop} {world : World n} {barrier : Bool}
    (run : Reachable devices permitted world)
    (next : ∀ world pid task attr, permitted world (.drain pid task attr) →
      attr.barrier = barrier) (p : Fin n) : (world.parties p).WithBarrier barrier := by
  revert p
  apply run.invariant
  · intro p
    exact .of_idle rfl fun active => absurd active Bool.false_ne_true
  · intro before action after same permitted taken p
    apply (taken.moves p).withBarrier (same p)
    rintro task attr rfl
    exact next before p task attr permitted

/-- All operations whose notification is addressed to a process -/
def addressed (world : World n) (p : Fin n) : Multiset (Posted n) :=
  ∑ q, (world.parties q).log.filter fun op => op.peer = p

/-- Those of them that are counted in the ring -/
def arrived (world : World n) (p : Fin n) : Multiset (Posted n) :=
  world.addressed p - world.travelling p

/-- How many messages of a superstep are addressed to a process. -/
def notified (world : World n) (p : Fin n) (superstep : ℕ) : ℕ :=
  (world.addressed p).countP fun op => op.superstep = superstep

variable {world after : World n} {action : Action n}

theorem mem_addressed {p : Fin n} {op : Posted n} :
    op ∈ world.addressed p ↔ ∃ q, op ∈ (world.parties q).log ∧ op.peer = p := by
  simp only [addressed, Multiset.mem_sum, Finset.mem_univ, true_and, Multiset.mem_filter]

theorem notified_eq_sum (world : World n) (p : Fin n) (superstep : ℕ) :
    world.notified p superstep = ∑ q, (world.parties q).notifications p superstep := by
  rw [notified, addressed, ← Multiset.coe_countPAddMonoidHom, map_sum]
  apply Finset.sum_congr rfl
  intro q _
  rw [Multiset.coe_countPAddMonoidHom, Multiset.countP_filter, Party.notifications]
  apply Multiset.countP_congr rfl
  intro op _
  rw [and_comm]

theorem notified_congr (logs : ∀ q, (after.parties q).log = (world.parties q).log) (p : Fin n)
    (superstep : ℕ) : after.notified p superstep = world.notified p superstep := by
  rw [notified, notified, addressed, addressed, Finset.sum_congr rfl fun q _ => by rw [logs q]]

/-- The operations addressed to a process after a post -/
theorem addressed_post {q peer : Fin n} {task : Task} {kind : OperationKind}
    (taken : Step world (.post q task kind peer) after) (p : Fin n) :
    after.addressed p = (if peer = p then {(world.parties q).operation task peer} else 0) +
      world.addressed p := by
  have logs : ∀ r, ((after.parties r).log.filter fun op => op.peer = p) =
      (if r = q then (if peer = p then {(world.parties q).operation task peer} else 0) else 0) +
        (world.parties r).log.filter fun op => op.peer = p := by
    intro r
    rw [taken]
    simp only [move, Function.update_apply]
    by_cases here : r = q
    · subst here
      simp only [if_true, Party.post, Multiset.filter_cons]
      rfl
    · simp only [here, if_false, Multiset.zero_add]
  rw [addressed, Finset.sum_congr rfl fun r _ => logs r, Finset.sum_add_distrib,
    Finset.sum_ite_eq' Finset.univ q, if_pos (Finset.mem_univ q)]
  rfl

/-- Only posts are noted in the logs. -/
theorem addressed_other (taken : Step world action after)
    (other : ∀ q task kind peer, action ≠ .post q task kind peer) (p : Fin n) :
    after.addressed p = world.addressed p := by
  apply Finset.sum_congr rfl
  intro q _
  rcases (taken.moves q).frame with ⟨log, _⟩ | ⟨task, kind, peer, isPost, _⟩
  · rw [log]
  · exact absurd isPost (other q task kind peer)

/-- What a step does to the notifications for one process. -/
inductive Flows (before : World n) (p : Fin n) : Action n → World n → Prop where
  | still {action : Action n} {after : World n}
      (unpolled : ∀ wcs, action ≠ .remoteProgress p wcs)
      (addressed : after.addressed p = before.addressed p)
      (travelling : after.travelling p = before.travelling p) : Flows before p action after
  | posted (q : Fin n) (task : Task) (kind : OperationKind) {after : World n}
      (addressed : after.addressed p =
        {(before.parties q).operation task p} + before.addressed p)
      (travelling : after.travelling p =
        {(before.parties q).operation task p} + before.travelling p) :
      Flows before p (.post q task kind p) after
  | polled (wcs : List (Posted n)) {after : World n}
      (addressed : after.addressed p = before.addressed p)
      (travelling : before.travelling p = wcs + after.travelling p) :
      Flows before p (.remoteProgress p wcs) after

theorem Step.flows (taken : Step world action after) (p : Fin n) : Flows world p action after := by
  cases action with
  | post q task kind peer =>
      have addressed := addressed_post taken p
      have travelling : after.travelling = Function.update world.travelling peer
          ((world.parties q).operation task peer ::ₘ world.travelling peer) := by
        rw [taken]
      by_cases here : peer = p
      · subst here
        rw [if_pos rfl] at addressed
        refine .posted q task kind addressed ?_
        rw [travelling, Function.update_self, Multiset.singleton_add]
      · rw [if_neg here, Multiset.zero_add] at addressed
        refine .still nofun addressed ?_
        rw [travelling, Function.update_of_ne (Ne.symm here)]
  | remoteProgress pid wcs =>
      have addressed := addressed_other taken nofun p
      rcases taken with ⟨rest, polled, rfl⟩
      by_cases here : pid = p
      · subst here
        have left : Function.update world.travelling pid rest pid = rest :=
          Function.update_self ..
        refine .polled wcs addressed ?_
        show world.travelling pid =
          (wcs : Multiset (Posted n)) + Function.update world.travelling pid rest pid
        rw [left, polled]
      · refine .still ?_ addressed (Function.update_of_ne (Ne.symm here) _ _)
        intro others same
        cases same
        exact here rfl
  | complete pid op =>
      have addressed := addressed_other taken nofun p
      rcases taken with ⟨rest, _, rfl⟩
      exact .still nofun addressed rfl
  | localProgress pid wcs =>
      have addressed := addressed_other taken nofun p
      rcases taken with ⟨rest, _, rfl⟩
      exact .still nofun addressed rfl
  | drain pid task attr =>
      have addressed := addressed_other taken nofun p
      rcases taken with ⟨_, _, rfl⟩
      exact .still nofun addressed rfl
  | readCounts pid =>
      have addressed := addressed_other taken nofun p
      rcases taken with ⟨_, _, _, rfl⟩
      exact .still nofun addressed rfl
  | exchange =>
      have addressed := addressed_other taken nofun p
      rcases taken with ⟨_, _, _, _, _, _, _, rfl⟩
      exact .still nofun addressed rfl
  | request pid =>
      have addressed := addressed_other taken nofun p
      rcases taken with ⟨_, _, _, _, _, _, rfl⟩
      exact .still nofun addressed rfl
  | processSyncRequest pid flag =>
      have addressed := addressed_other taken nofun p
      rcases taken with ⟨_, _, _, rfl⟩
      exact .still nofun addressed rfl

/-- What is on its way after a step was so before it or has just been posted. -/
theorem Step.mem_travelling (taken : Step world action after) {p : Fin n} {op : Posted n}
    (member : op ∈ after.travelling p) : op ∈ world.travelling p ∨ ∃ q task kind,
      action = .post q task kind p ∧ op = (world.parties q).operation task p := by
  cases taken.flows p with
  | still _ _ travelling =>
      rw [travelling] at member
      exact Or.inl member
  | posted q task kind _ travelling =>
      rw [travelling, Multiset.mem_add, Multiset.mem_singleton] at member
      rcases member with new | old
      · exact Or.inr ⟨q, task, kind, rfl, new⟩
      · exact Or.inl old
  | polled wcs _ travelling =>
      rw [travelling]
      exact Or.inl (Multiset.mem_add.mpr (Or.inr member))

/-- Only a post adds to the messages of a superstep. -/
theorem Step.notified (taken : Step world action after) (p : Fin n) (superstep : ℕ) :
    after.notified p superstep = world.notified p superstep ∨ ∃ q task kind,
      action = .post q task kind p ∧ (world.parties q).superstep = superstep ∧
        after.notified p superstep = world.notified p superstep + 1 := by
  cases taken.flows p with
  | still _ addressed _ =>
      rw [World.notified, World.notified, addressed]
      exact Or.inl rfl
  | posted q task kind addressed _ =>
      rw [World.notified, World.notified, addressed, Multiset.singleton_add, Multiset.countP_cons]
      split
      next same => exact Or.inr ⟨q, task, kind, rfl, same, rfl⟩
      next => exact Or.inl rfl
  | polled wcs addressed _ =>
      rw [World.notified, World.notified, addressed]
      exact Or.inl rfl

/-- The request of a process is about to subtract exactly the messages of its superstep. -/
structure CountsExactly (world : World n) (p : Fin n) (entry : Fin 1024) : Prop where
  index : entry.val = (world.parties p).superstep % 1024
  /-- Nothing is left in the entry after the subtraction. -/
  recvCounts : (world.parties p).verbs.recvCounts entry =
    (world.parties p).verbs.syncRequest.remoteMsgs
  /-- What is subtracted are all messages of the superstep. -/
  remoteMsgs : (world.parties p).verbs.syncRequest.remoteMsgs =
    world.notified p (world.parties p).superstep
  /-- All of them have arrived. -/
  delivered : ∀ op ∈ world.travelling p, (world.parties p).superstep < op.superstep
  /-- No message of a later superstep is in the entry. -/
  only : ∀ op ∈ world.arrived p, op.superstep % 1024 = entry.val →
    op.superstep ≤ (world.parties p).superstep

/-- A look of the polling task completes the request of a process. -/
def Completes (before : World n) (p : Fin n) (after : World n) : Prop :=
  ∃ flag, Step before (.processSyncRequest p flag) after ∧
    (after.parties p).superstep = (before.parties p).superstep + 1

/-- The subtraction leaves nothing in the entry. -/
theorem CountsExactly.recvCounts_takeRecvs {p : Fin n} {entry : Fin 1024}
    (exactly : world.CountsExactly p entry) :
    ((world.parties p).verbs.takeRecvs entry).recvCounts entry = 0 := by
  rw [takeRecvs]
  dsimp only
  rw [Function.update_self, exactly.recvCounts, Int.sub_self]

/-- Nothing is posted for a superstep that its receiver has counted, no notification arrives 1024
supersteps early, and a sync waits for at least as many messages as are addressed to it. -/
def Punctual (world : World n) : Action n → Prop
  | .post pid _ _ peer => (world.parties peer).taken ≤ (world.parties pid).superstep
  | .remoteProgress pid wcs => ∀ wc ∈ wcs, wc.superstep < (world.parties pid).taken + 1024
  | .processSyncRequest pid _ => ∀ entry, (world.parties pid).Counts entry →
      (world.notified pid (world.parties pid).superstep : Int) ≤
        (world.parties pid).verbs.syncRequest.remoteMsgs
  | _ => True

/-- The ring of each process holds the messages of the supersteps that it has not counted. -/
structure Settled (world : World n) : Prop where
  phased : ∀ p, (world.parties p).Phased
  travelling : ∀ p, world.travelling p ≤ world.addressed p
  late : ∀ p, ∀ op ∈ world.travelling p, (world.parties p).taken ≤ op.superstep
  early : ∀ p, ∀ op ∈ world.arrived p, op.superstep < (world.parties p).taken + 1024
  recvCounts : ∀ p entry, (world.parties p).verbs.recvCounts entry =
    (world.arrived p).countP fun op =>
      op.superstep % 1024 = entry.val ∧ (world.parties p).taken ≤ op.superstep

theorem settled_initial (devices : Fin n → Device n) : (initial devices).Settled where
  phased _ second := absurd second Bool.false_ne_true
  travelling _ := Multiset.zero_le _
  late := by
    intro p op member
    cases Multiset.notMem_zero op member
  early := by
    intro p op member
    have some := Multiset.mem_of_le (tsub_le_self) member
    rcases mem_addressed.mp some with ⟨q, logged, _⟩
    cases Multiset.notMem_zero op logged
  recvCounts := by
    intro p entry
    have nothing : (initial devices).addressed p = 0 :=
      Finset.sum_eq_zero fun q _ => Multiset.filter_zero _
    rw [arrived, nothing, zero_tsub]
    rfl

namespace Settled

theorem arrived_add_travelling (settled : world.Settled) (p : Fin n) :
    world.arrived p + world.travelling p = world.addressed p :=
  tsub_add_cancel_of_le (settled.travelling p)

/-- An entry holds messages of one superstep. -/
theorem recvCounts_le (settled : world.Settled) (p : Fin n) (entry : Fin 1024) :
    ∃ superstep, (world.parties p).verbs.recvCounts entry ≤ world.notified p superstep := by
  let taken := (world.parties p).taken
  refine ⟨taken + (entry.val + 1024 - taken % 1024) % 1024, ?_⟩
  rw [settled.recvCounts p entry, notified, ← settled.arrived_add_travelling p,
    Multiset.countP_add]
  have same : ∀ op ∈ world.arrived p, (op.superstep % 1024 = entry.val ∧ taken ≤ op.superstep) =
      (op.superstep = taken + (entry.val + 1024 - taken % 1024) % 1024) := by
    intro op member
    have early := settled.early p op member
    have small := entry.isLt
    rw [eq_iff_iff]
    omega
  rw [Multiset.countP_congr rfl same]
  exact_mod_cast Nat.le_add_right _ _

/-- When nothing is on its way any more, the messages of the superstep are in its entry. -/
theorem notified_le (settled : world.Settled) {p : Fin n} (nothing : world.travelling p = 0)
    (taken : (world.parties p).taken = (world.parties p).superstep) {entry : Fin 1024}
    (index : entry.val = (world.parties p).superstep % 1024) :
    (world.notified p (world.parties p).superstep : Int) ≤
      (world.parties p).verbs.recvCounts entry := by
  have all := settled.arrived_add_travelling p
  rw [nothing, Multiset.add_zero] at all
  rw [settled.recvCounts p entry, taken, notified, ← all]
  have same : ∀ op ∈ world.arrived p, (op.superstep = (world.parties p).superstep) =
      (op.superstep % 1024 = entry.val ∧ (world.parties p).superstep ≤ op.superstep) := by
    intro op member
    have early := settled.early p op member
    rw [taken] at early
    rw [eq_iff_iff]
    omega
  rw [Multiset.countP_congr rfl same]

/-- A process that has enough messages for its sync has exactly those of its superstep. -/
theorem countsExactly (settled : world.Settled) (tracked : world.Tracked) {p : Fin n}
    {entry : Fin 1024} (counts : (world.parties p).Counts entry)
    (enough : (world.notified p (world.parties p).superstep : Int) ≤
      (world.parties p).verbs.syncRequest.remoteMsgs) : world.CountsExactly p entry := by
  have index : entry.val = (world.parties p).superstep % 1024 :=
    syncIndex_of_superstep (tracked.parties p).syncCounter counts.2.2.1
  have taken := (settled.phased p).taken_of_counts counts
  have split := settled.arrived_add_travelling p
  -- among the arrived messages the entry holds those of this superstep only
  have same : ∀ op ∈ world.arrived p,
      (op.superstep % 1024 = entry.val ∧ (world.parties p).superstep ≤ op.superstep) =
        (op.superstep = (world.parties p).superstep) := by
    intro op member
    have early := settled.early p op member
    rw [taken] at early
    rw [eq_iff_iff]
    omega
  have inRing := settled.recvCounts p entry
  rw [taken, Multiset.countP_congr rfl same] at inRing
  have total : (world.arrived p).countP (fun op => op.superstep = (world.parties p).superstep) +
      (world.travelling p).countP (fun op => op.superstep = (world.parties p).superstep) =
        world.notified p (world.parties p).superstep := by
    rw [← Multiset.countP_add, split, notified]
  have least := counts.2.2.2
  have none : (world.travelling p).countP
      (fun op => op.superstep = (world.parties p).superstep) = 0 := by omega
  refine ⟨index, by omega, by omega, ?_, ?_⟩
  · intro op member
    have late := settled.late p op member
    have other := Multiset.countP_eq_zero.mp none op member
    omega
  · intro op member inEntry
    have early := settled.early p op member
    omega

/-- What arrives is counted, and nothing else changes the messages that have arrived. -/
theorem arrived_step (settled : world.Settled) (taken : Step world action after) (p : Fin n) :
    after.travelling p ≤ after.addressed p ∧
      (((∀ wcs, action ≠ .remoteProgress p wcs) ∧ after.arrived p = world.arrived p) ∨
        ∃ wcs : List (Posted n), action = .remoteProgress p wcs ∧
          (∀ wc ∈ wcs, wc ∈ world.travelling p) ∧ after.arrived p = world.arrived p + wcs) := by
  have below := settled.travelling p
  cases taken.flows p with
  | still unpolled addressed travelling =>
      rw [arrived, arrived, addressed, travelling]
      exact ⟨below, Or.inl ⟨unpolled, rfl⟩⟩
  | posted q task kind addressed travelling =>
      rw [arrived, arrived, addressed, travelling]
      exact ⟨add_le_add_right below _, Or.inl ⟨nofun, add_tsub_add_eq_tsub_left _ _ _⟩⟩
  | polled wcs addressed travelling =>
      have split := settled.arrived_add_travelling p
      rw [travelling, ← add_assoc] at split
      refine ⟨?_, Or.inr ⟨wcs, rfl, ?_, ?_⟩⟩
      · rw [addressed, ← split]
        exact le_add_self
      · intro wc member
        rw [travelling]
        exact Multiset.mem_add.mpr (Or.inl member)
      · rw [arrived, addressed, ← split, add_tsub_cancel_right]

/-- Whether a notification belongs to an entry depends on its tag. -/
theorem countP_recvIndex (wcs : List (Posted n)) (entry : Fin 1024) {start : ℕ}
    (tags : ∀ wc ∈ wcs, wc.immData = BitVec.ofNat 32 wc.superstep)
    (late : ∀ wc ∈ wcs, start ≤ wc.superstep) :
    (wcs.map Posted.immData).countP (fun tag => recvIndex tag = entry) =
      (wcs : Multiset (Posted n)).countP fun op =>
        op.superstep % 1024 = entry.val ∧ start ≤ op.superstep := by
  rw [List.countP_map, Multiset.coe_countP]
  apply List.countP_congr
  intro wc member
  simp only [Function.comp_apply, decide_eq_true_eq, tags wc member, Fin.ext_iff,
    recvIndex_ofNat, late wc member, and_true]

theorem late_step (settled : world.Settled) (tracked : world.Tracked)
    (punctual : world.Punctual action) (taken : Step world action after) {p : Fin n}
    {op : Posted n} (member : op ∈ after.travelling p) :
    (after.parties p).taken ≤ op.superstep := by
  have turns := ((taken.moves p).turns (settled.phased p)).2
  rcases taken.mem_travelling member with old | ⟨q, task, kind, rfl, rfl⟩
  · have late := settled.late p op old
    cases turns with
    | keeps _ same => exact same ▸ late
    | receives _ _ same => exact same ▸ late
    | counts counts _ next =>
        have delivered :=
          (settled.countsExactly tracked counts (punctual _ counts)).delivered op old
        rw [next, (settled.phased p).taken_of_counts counts]
        exact delivered
  · cases turns with
    | keeps _ same =>
        rw [same]
        exact punctual

theorem early_step (settled : world.Settled) (punctual : world.Punctual action)
    (taken : Step world action after) {p : Fin n} {op : Posted n}
    (member : op ∈ after.arrived p) : op.superstep < (after.parties p).taken + 1024 := by
  have further : (world.parties p).taken ≤ (after.parties p).taken := by
    cases ((taken.moves p).turns (settled.phased p)).2 with
    | keeps _ same => exact same.ge
    | receives _ _ same => exact same.ge
    | counts _ _ next => exact next ▸ Nat.le_succ _
  have early : op.superstep < (world.parties p).taken + 1024 := by
    rcases (settled.arrived_step taken p).2 with ⟨_, same⟩ | ⟨wcs, rfl, _, more⟩
    · rw [same] at member
      exact settled.early p op member
    · rw [more, Multiset.mem_add] at member
      rcases member with old | new
      · exact settled.early p op old
      · exact punctual op new
  omega

/-- The entry of a superstep is empty once its messages are subtracted. -/
theorem recvCounts_counts (settled : world.Settled) {p : Fin n} {entry : Fin 1024}
    (counts : (world.parties p).Counts entry) (exactly : world.CountsExactly p entry)
    (other : Fin 1024) : ((world.parties p).verbs.takeRecvs entry).recvCounts other =
      (world.arrived p).countP fun op =>
        op.superstep % 1024 = other.val ∧ (world.parties p).taken + 1 ≤ op.superstep := by
  have taken := (settled.phased p).taken_of_counts counts
  have index := exactly.index
  rw [takeRecvs]
  dsimp only
  rw [Function.update_apply]
  split
  next here =>
    have none : (world.arrived p).countP (fun op =>
        op.superstep % 1024 = other.val ∧ (world.parties p).taken + 1 ≤ op.superstep) = 0 := by
      rw [Multiset.countP_eq_zero]
      rintro op member ⟨inEntry, later⟩
      rw [here] at inEntry
      have only := exactly.only op member inEntry
      omega
    rw [none, exactly.recvCounts]
    exact Int.sub_self _
  next elsewhere =>
    rw [settled.recvCounts p other]
    apply congrArg
    apply Multiset.countP_congr rfl
    intro op _
    rw [eq_iff_iff]
    have differs : other.val ≠ entry.val := fun same => elsewhere (Fin.ext same)
    omega

theorem recvCounts_step (settled : world.Settled) (tracked : world.Tracked)
    (punctual : world.Punctual action) (taken : Step world action after) (p : Fin n)
    (entry : Fin 1024) : (after.parties p).verbs.recvCounts entry =
      (after.arrived p).countP fun op =>
        op.superstep % 1024 = entry.val ∧ (after.parties p).taken ≤ op.superstep := by
  have turns := ((taken.moves p).turns (settled.phased p)).2
  rcases (settled.arrived_step taken p).2 with ⟨unpolled, same⟩ | ⟨wcs, rfl, onWay, more⟩
  · rw [same]
    cases turns with
    | keeps recvCounts sameTaken =>
        rw [recvCounts, sameTaken]
        exact settled.recvCounts p entry
    | receives wcs => exact absurd rfl (unpolled wcs)
    | counts counts recvCounts next =>
        rw [recvCounts, next]
        exact settled.recvCounts_counts counts
          (settled.countsExactly tracked counts (punctual _ counts)) entry
  · have sameTaken : (after.parties p).taken = (world.parties p).taken := by
      cases turns with
      | keeps _ same => exact same
      | receives _ _ same => exact same
    have recvCounts : (after.parties p).verbs.recvCounts =
        ((world.parties p).verbs.doRemoteProgress (wcs.map Posted.immData)).recvCounts := by
      rcases taken with ⟨rest, _, rfl⟩
      simp only [move, Function.update_self]
    have tags : ∀ wc ∈ wcs, wc.immData = BitVec.ofNat 32 wc.superstep := by
      intro wc member
      rcases mem_addressed.mp (Multiset.mem_of_le (settled.travelling p) (onWay wc member)) with
        ⟨q, logged, _⟩
      exact (tracked.parties q).immData wc logged
    rw [recvCounts, recvCounts_batch, settled.recvCounts, more, sameTaken, Multiset.countP_add,
      countP_recvIndex wcs entry tags fun wc member => settled.late p wc (onWay wc member)]
    push_cast
    rfl

theorem step (settled : world.Settled) (tracked : world.Tracked)
    (punctual : world.Punctual action) (taken : Step world action after) : after.Settled where
  phased p := ((taken.moves p).turns (settled.phased p)).1
  travelling p := (settled.arrived_step taken p).1
  late _ _ member := settled.late_step tracked punctual taken member
  early _ _ member := settled.early_step punctual taken member
  recvCounts p entry := settled.recvCounts_step tracked punctual taken p entry

end Settled

end World

end IBVerbs

end Talpf
