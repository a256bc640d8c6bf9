import Talpf.IBVerbs.Interleaving
import Talpf.IBVerbs.Lockstep
import Mathlib.Data.Multiset.Count
import Mathlib.Data.Nat.Count

/-!
# Conservation of the counters

Over every interleaving the counters of a process follow the operations that it
has posted: `numMsgs` and the events of the tasks count those whose completion
has not been polled, and `numMsgsSync` counts those posted since the counts were
last read.  If no process posts anything while a sync is between the reading of
the counts and the completion of its request, what is exchanged is the number of
notifications of that superstep.
-/

namespace Talpf

namespace IBVerbs

variable {n : ℕ}

/-- A sync that has read the counts and has not handed its request over. -/
def SyncPhase.begun : SyncPhase n → ℕ
  | .idle | .drained _ _ => 0
  | .counted _ _ _ | .ready _ _ _ => 1

/-- Everything that a look at the request does. -/
theorem look_cases (verbs : IBVerbs n) (flag : Bool) :
    verbs.processSyncRequest flag = .waiting ∨ verbs.processSyncRequest flag = .fault ∨
      ((verbs.syncRequest.withBarrier = true ∧ verbs.syncRequest.secondPhase = true) ∧
        verbs.processSyncRequest flag = .complete verbs.finishRequest verbs.syncRequest.task) ∨
      ∃ entry, ¬(verbs.syncRequest.withBarrier = true ∧ verbs.syncRequest.secondPhase = true) ∧
        verbs.syncIndex = some entry ∧ verbs.syncRequest.remoteMsgs ≤ verbs.recvCounts entry ∧
        ((verbs.syncRequest.withBarrier = true ∧ verbs.processSyncRequest flag =
            .barrier { verbs.takeRecvs entry with
              syncRequest := { (verbs.takeRecvs entry).syncRequest with secondPhase := true } }) ∨
          (verbs.syncRequest.withBarrier = false ∧ verbs.processSyncRequest flag =
            .complete (verbs.takeRecvs entry).releaseRequest verbs.syncRequest.task)) := by
  rw [processSyncRequest]
  split
  next second =>
    cases flag with
    | true => exact Or.inr (Or.inr (Or.inl ⟨second, rfl⟩))
    | false => exact Or.inl rfl
  next first =>
    split
    next => exact Or.inr (Or.inl rfl)
    next entry index =>
      split
      next enough =>
        refine Or.inr (Or.inr (Or.inr ⟨entry, first, index, enough, ?_⟩))
        dsimp only
        split
        next barrier => exact Or.inl ⟨barrier, rfl⟩
        next barrier => exact Or.inr ⟨Bool.not_eq_true _ ▸ barrier, rfl⟩
      next => exact Or.inl rfl

namespace Party

/-- Operations whose completion has not been polled. -/
def unpolled (party : Party n) : Multiset (Posted n) := party.outstanding + party.completed

/-- How many operations addressed to a peer were posted in an epoch. -/
def sent (party : Party n) (peer : Fin n) (epoch : ℕ) : ℕ :=
  party.log.countP fun op => op.peer = peer ∧ op.epoch = epoch

/-- How many notifications of a superstep a process sends to a peer; not all of them need to have
arrived. -/
def notifications (party : Party n) (peer : Fin n) (superstep : ℕ) : ℕ :=
  party.log.countP fun op => op.peer = peer ∧ op.superstep = superstep

/-- One if the active sync request is that of the task, and otherwise none. -/
def activeRequest (party : Party n) (task : Task) : ℕ :=
  if party.verbs.syncRequest.isActive = true ∧ party.verbs.syncRequest.task = some task then 1
  else 0

/-- The counters of a process agree with its operations. -/
structure Conserved (party : Party n) : Prop where
  numMsgs : party.verbs.numMsgs = party.unpolled.card
  events : ∀ task, party.events task =
    (party.unpolled.countP fun op => op.task = task) + party.activeRequest task
  /-- An epoch begins when the counts are read. -/
  numMsgsSync : ∀ peer, party.verbs.numMsgsSync peer = party.sent peer party.epoch

/-- What else the counters are kept in step with. -/
structure Tracked (party : Party n) : Prop where
  conserved : party.Conserved
  counted : ∀ task attr counts, party.phase = .counted task attr counts →
    ∀ peer, counts peer = party.sent peer (party.epoch - 1)
  epochs : ∀ op ∈ party.log, op.epoch ≤ party.epoch
  epoch : party.epoch =
    party.superstep + (if party.verbs.syncRequest.isActive then 1 else 0) + party.phase.begun
  syncCounter : party.verbs.syncCounter = BitVec.ofNat 32 party.superstep
  immData : ∀ op ∈ party.log, op.immData = BitVec.ofNat 32 op.superstep

theorem tracked_initial (device : Device n) : (initial device).Tracked where
  conserved :=
    { numMsgs := rfl
      events := fun _ => rfl
      numMsgsSync := fun _ => rfl }
  counted := by
    intro task attr counts phase
    cases phase
  epochs := by
    intro op member
    cases Multiset.notMem_zero op member
  epoch := rfl
  syncCounter := rfl
  immData := by
    intro op member
    cases Multiset.notMem_zero op member

@[simp]
theorem eventsIncrease_apply (events : Task → Int) (task other : Task) :
    eventsIncrease events task other = events other + if task = other then 1 else 0 := by
  rw [eventsIncrease, Function.update_apply]
  by_cases same : task = other
  · rw [if_pos same.symm, if_pos same, same]
  · rw [if_neg (Ne.symm same), if_neg same, Int.add_zero]

@[simp]
theorem eventsDecrease_apply (events : Task → Int) (task other : Task) :
    eventsDecrease events task other = events other - if task = other then 1 else 0 := by
  rw [eventsDecrease, Function.update_apply]
  by_cases same : task = other
  · rw [if_pos same.symm, if_pos same, same]
  · rw [if_neg (Ne.symm same), if_neg same, Int.sub_zero]

/-- A batch of completions decreases the events of each task by the number of its operations. -/
theorem foldl_eventsDecrease (events : Task → Int) (wcs : List (Posted n)) (task : Task) :
    wcs.foldl (fun events wc => eventsDecrease events wc.task) events task =
      events task - (wcs : Multiset (Posted n)).countP fun op => op.task = task := by
  induction wcs generalizing events with
  | nil => simp
  | cons wc wcs ih =>
      rw [List.foldl_cons, ih, eventsDecrease_apply, ← Multiset.cons_coe, Multiset.countP_cons]
      split <;> push_cast <;> omega

variable {party : Party n}

/-- A new operation is counted in its own epoch. -/
theorem sent_post (party : Party n) (task : Task) (kind : OperationKind) (peer other : Fin n)
    (epoch : ℕ) : (party.post task kind peer).sent other epoch =
      party.sent other epoch + if peer = other ∧ party.epoch = epoch then 1 else 0 :=
  Multiset.countP_cons _ _ _

theorem Tracked.post (tracked : party.Tracked) (task : Task) (kind : OperationKind)
    (peer : Fin n) : (party.post task kind peer).Tracked where
  conserved :=
    { numMsgs := by
        have before := tracked.conserved.numMsgs
        simp only [unpolled, Multiset.card_add] at before
        simp only [Party.post, unpolled, OperationKind.post_eq, countOperation, before,
          Multiset.card_add, Multiset.card_cons]
        push_cast
        omega
      events := by
        intro other
        have before := tracked.conserved.events other
        have sameRequest : (party.post task kind peer).activeRequest other =
            party.activeRequest other := by
          simp only [activeRequest, Party.post, OperationKind.post_eq, countOperation]
        rw [sameRequest]
        simp only [unpolled, Multiset.countP_add] at before
        simp only [Party.post, unpolled, operation, eventsIncrease_apply, before,
          Multiset.countP_add, Multiset.countP_cons]
        push_cast
        omega
      numMsgsSync := by
        intro other
        have before := tracked.conserved.numMsgsSync other
        rw [sent_post]
        simp only [Party.post, OperationKind.post_eq, countOperation, Function.update_apply]
        by_cases same : other = peer
        · subst same
          simp [before]
        · simp [same, Ne.symm same, before] }
  counted := by
    intro itsTask attr counts phase other
    have begun := tracked.epoch
    have isCounted : party.phase = .counted itsTask attr counts := phase
    rw [isCounted, SyncPhase.begun] at begun
    rw [sent_post, tracked.counted itsTask attr counts phase other]
    have earlier : party.epoch ≠ party.epoch - 1 := by omega
    simp [Party.post, earlier]
  epochs := by
    intro op member
    rcases Multiset.mem_cons.mp member with rfl | old
    · exact Nat.le_refl _
    · exact tracked.epochs op old
  epoch := by
    have before := tracked.epoch
    simpa only [Party.post, OperationKind.post_eq, countOperation] using before
  syncCounter := by
    have before := tracked.syncCounter
    simpa only [Party.post, OperationKind.post_eq, countOperation] using before
  immData := by
    intro op member
    rcases Multiset.mem_cons.mp member with rfl | old
    · exact tracked.syncCounter
    · exact tracked.immData op old

theorem Tracked.complete (tracked : party.Tracked) {op : Posted n} {rest : Multiset (Posted n)}
    (first : party.outstanding = op ::ₘ rest) :
    ({ party with outstanding := rest, completed := op ::ₘ party.completed } : Party n).Tracked :=
  have same : rest + op ::ₘ party.completed = party.unpolled := by
    rw [unpolled, first, Multiset.add_cons, Multiset.cons_add]
  { conserved :=
      { numMsgs := by
          rw [unpolled, same]
          exact tracked.conserved.numMsgs
        events := by
          intro task
          rw [unpolled, same]
          exact tracked.conserved.events task
        numMsgsSync := tracked.conserved.numMsgsSync }
    counted := tracked.counted
    epochs := tracked.epochs
    epoch := tracked.epoch
    syncCounter := tracked.syncCounter
    immData := tracked.immData }

theorem Tracked.localProgress (tracked : party.Tracked) {wcs : List (Posted n)}
    {rest : Multiset (Posted n)} (polled : party.completed = wcs + rest) :
    (party.localProgress wcs rest).Tracked where
  conserved :=
    { numMsgs := by
        have before := tracked.conserved.numMsgs
        simp only [unpolled, polled, Multiset.card_add, Multiset.coe_card] at before
        simp only [Party.localProgress, doLocalProgress, unpolled, before, Multiset.card_add]
        push_cast
        omega
      events := by
        intro task
        have before := tracked.conserved.events task
        have sameRequest : (party.localProgress wcs rest).activeRequest task =
            party.activeRequest task := rfl
        rw [sameRequest]
        simp only [unpolled, polled, Multiset.countP_add] at before
        simp only [Party.localProgress, unpolled, foldl_eventsDecrease, before,
          Multiset.countP_add]
        push_cast
        omega
      numMsgsSync := tracked.conserved.numMsgsSync }
  counted := tracked.counted
  epochs := tracked.epochs
  epoch := tracked.epoch
  syncCounter := tracked.syncCounter
  immData := tracked.immData

/-- Counting notifications touches nothing but the ring. -/
theorem doRemoteProgress_eq (verbs : IBVerbs n) (immData : List (BitVec 32)) :
    verbs.doRemoteProgress immData =
      { verbs with recvCounts := (verbs.doRemoteProgress immData).recvCounts } := by
  rw [doRemoteProgress]
  induction immData generalizing verbs with
  | nil => rfl
  | cons first rest ih => exact ih (verbs.countRecv first)

theorem Tracked.remoteProgress (tracked : party.Tracked) (immData : List (BitVec 32)) :
    ({ party with verbs := party.verbs.doRemoteProgress immData } : Party n).Tracked := by
  rw [doRemoteProgress_eq]
  exact ⟨⟨tracked.conserved.numMsgs, tracked.conserved.events, tracked.conserved.numMsgsSync⟩,
    tracked.counted, tracked.epochs, tracked.epoch, tracked.syncCounter, tracked.immData⟩

theorem Tracked.drain (tracked : party.Tracked) (idle : party.phase = .idle) (task : Task)
    (attr : SyncAttr) : ({ party with phase := .drained task attr } : Party n).Tracked where
  conserved :=
    ⟨tracked.conserved.numMsgs, tracked.conserved.events, tracked.conserved.numMsgsSync⟩
  counted := by
    intro itsTask itsAttr counts phase
    cases phase
  epochs := tracked.epochs
  epoch := by
    have before := tracked.epoch
    rw [idle] at before
    exact before
  syncCounter := tracked.syncCounter
  immData := tracked.immData

/-- Nothing was posted in an epoch that is still to come. -/
theorem Tracked.sent_next (tracked : party.Tracked) (peer : Fin n) :
    party.sent peer (party.epoch + 1) = 0 := by
  rw [sent, Multiset.countP_eq_zero]
  rintro op member ⟨_, next⟩
  have := tracked.epochs op member
  omega

theorem Tracked.readCounts (tracked : party.Tracked) {task : Task} {attr : SyncAttr}
    (drained : party.phase = .drained task attr) : (party.readCounts task attr).Tracked := by
  have before := tracked.epoch
  rw [drained, SyncPhase.begun] at before
  have numMsgsSync : ∀ peer, (0 : Int) = party.sent peer (party.epoch + 1) := by
    intro peer
    rw [tracked.sent_next]
    rfl
  have epochs : ∀ op ∈ party.log, op.epoch ≤ party.epoch + 1 := by
    intro op member
    exact Nat.le_succ_of_le (tracked.epochs op member)
  have next : party.epoch + 1 =
      party.superstep + (if party.verbs.syncRequest.isActive then 1 else 0) + 1 := by omega
  simp only [Party.readCounts]
  split
  · split
    · exact ⟨⟨tracked.conserved.numMsgs, tracked.conserved.events, numMsgsSync⟩,
        (by intro _ _ _ phase; cases phase), epochs, next, tracked.syncCounter, tracked.immData⟩
    · refine ⟨⟨tracked.conserved.numMsgs, tracked.conserved.events, numMsgsSync⟩, ?_, epochs, next,
        tracked.syncCounter, tracked.immData⟩
      intro _ _ _ phase
      cases phase
      exact tracked.conserved.numMsgsSync
  · refine ⟨⟨tracked.conserved.numMsgs, tracked.conserved.events, numMsgsSync⟩, ?_, epochs, next,
      tracked.syncCounter, tracked.immData⟩
    intro _ _ _ phase
    cases phase
    exact tracked.conserved.numMsgsSync
  · exact ⟨⟨tracked.conserved.numMsgs, tracked.conserved.events, numMsgsSync⟩,
      (by intro _ _ _ phase; cases phase), epochs, next, tracked.syncCounter, tracked.immData⟩
  · exact ⟨⟨tracked.conserved.numMsgs, tracked.conserved.events, numMsgsSync⟩,
      (by intro _ _ _ phase; cases phase), epochs, next, tracked.syncCounter, tracked.immData⟩

theorem Tracked.exchanged (tracked : party.Tracked) {task : Task} {attr : SyncAttr}
    {counts : Fin n → Int} (counted : party.phase = .counted task attr counts)
    (remoteMsgs : Int) : (party.exchanged task attr remoteMsgs).Tracked where
  conserved :=
    ⟨tracked.conserved.numMsgs, tracked.conserved.events, tracked.conserved.numMsgsSync⟩
  counted := by
    intro itsTask itsAttr itsCounts phase
    cases phase
  epochs := tracked.epochs
  epoch := by
    have before := tracked.epoch
    rw [counted] at before
    exact before
  syncCounter := tracked.syncCounter
  immData := tracked.immData

theorem Tracked.request (tracked : party.Tracked) {task : Task} {barrier : Bool}
    {remoteMsgs : Int} (ready : party.phase = .ready task barrier remoteMsgs) {after : Party n}
    (accepted : party.request task barrier remoteMsgs = some after) : after.Tracked := by
  rcases Option.map_eq_some_iff.mp accepted with ⟨verbs, requests, rfl⟩
  have before := tracked.epoch
  rw [ready, SyncPhase.begun] at before
  rw [requestSync] at requests
  split at requests
  next => cases requests
  next inactive =>
    rw [Option.some.injEq] at requests
    subst requests
    rw [if_neg inactive] at before
    refine ⟨⟨tracked.conserved.numMsgs, ?_, tracked.conserved.numMsgsSync⟩,
      (by intro _ _ _ phase; cases phase), tracked.epochs, ?_, tracked.syncCounter,
      tracked.immData⟩
    · intro other
      have itsEvents := tracked.conserved.events other
      rw [activeRequest, if_neg (fun active => inactive active.1)] at itsEvents
      simp only [eventsIncrease_apply, itsEvents, activeRequest, Option.some.injEq, true_and,
        unpolled]
      push_cast
      omega
    · simp only [if_true, SyncPhase.begun]
      omega

/-- Everything that a look at the sync request does to the counters. -/
theorem processSyncRequest_cases (verbs : IBVerbs n) (flag : Bool) :
    verbs.processSyncRequest flag = .waiting ∨ verbs.processSyncRequest flag = .fault ∨
      ∃ recvCounts syncRequest,
        (verbs.processSyncRequest flag =
            .barrier { verbs with recvCounts := recvCounts, syncRequest := syncRequest } ∧
          syncRequest.isActive = verbs.syncRequest.isActive ∧
          syncRequest.task = verbs.syncRequest.task) ∨
        (verbs.processSyncRequest flag =
            .complete { verbs with
              recvCounts := recvCounts
              syncRequest := syncRequest
              syncCounter := verbs.syncCounter + 1 } verbs.syncRequest.task ∧
          syncRequest.isActive = false) := by
  rcases look_cases verbs flag with waits | faults | ⟨_, finishes⟩ |
    ⟨entry, _, _, _, ⟨_, starts⟩ | ⟨_, releases⟩⟩
  · exact Or.inl waits
  · exact Or.inr (Or.inl faults)
  · exact Or.inr (Or.inr ⟨_, _, Or.inr ⟨finishes, rfl⟩⟩)
  · exact Or.inr (Or.inr ⟨_, _, Or.inl ⟨starts, rfl, rfl⟩⟩)
  · exact Or.inr (Or.inr ⟨_, _, Or.inr ⟨releases, rfl⟩⟩)

theorem Tracked.processSyncRequest (tracked : party.Tracked)
    (active : party.verbs.syncRequest.isActive = true) {flag : Bool} {after : Party n}
    (processed : party.processSyncRequest flag = some after) : after.Tracked := by
  rw [Party.processSyncRequest] at processed
  rcases processSyncRequest_cases party.verbs flag with waits | faults |
    ⟨recvCounts, syncRequest, ⟨starts, sameActive, sameTask⟩ | ⟨completes, inactive⟩⟩
  · rw [waits, Option.some.injEq] at processed
    rw [← processed]
    exact tracked
  · rw [faults] at processed
    cases processed
  · rw [starts, Option.some.injEq] at processed
    subst processed
    refine ⟨⟨tracked.conserved.numMsgs, ?_, tracked.conserved.numMsgsSync⟩, tracked.counted,
      tracked.epochs, ?_, tracked.syncCounter, tracked.immData⟩
    · simp only [activeRequest, sameActive, sameTask]
      exact tracked.conserved.events
    · simp only [sameActive]
      exact tracked.epoch
  · rw [completes, Option.some.injEq] at processed
    subst processed
    refine ⟨⟨tracked.conserved.numMsgs, ?_, tracked.conserved.numMsgsSync⟩, tracked.counted,
      tracked.epochs, ?_, ?_, tracked.immData⟩
    · intro task
      have itsEvents := tracked.conserved.events task
      simp only [activeRequest, active, true_and] at itsEvents
      simp only [activeRequest, inactive, Bool.false_eq_true, false_and, if_false]
      cases isTask : party.verbs.syncRequest.task with
      | none =>
          rw [isTask, if_neg (by simp)] at itsEvents
          exact itsEvents
      | some waiting =>
          rw [isTask] at itsEvents
          simp only [Option.elim_some, eventsDecrease_apply, itsEvents, Option.some.injEq, unpolled]
          push_cast
          omega
    · have before := tracked.epoch
      rw [active, if_pos rfl] at before
      simp only [inactive, Bool.false_eq_true, if_false]
      omega
    · simp only [tracked.syncCounter, BitVec.ofNat_add]
      rfl

/-- What a process has posted in earlier epochs is settled. -/
structure Extends (before after : Party n) : Prop where
  epoch : before.epoch ≤ after.epoch
  sent : ∀ peer epoch, epoch < before.epoch → after.sent peer epoch = before.sent peer epoch

namespace Extends

theorem of_log {before after : Party n} (epoch : before.epoch ≤ after.epoch)
    (log : after.log = before.log) : before.Extends after := by
  refine ⟨epoch, ?_⟩
  intro peer epoch _
  rw [Party.sent, Party.sent, log]

theorem post (party : Party n) (task : Task) (kind : OperationKind) (peer : Fin n) :
    party.Extends (party.post task kind peer) := by
  refine ⟨Nat.le_refl _, ?_⟩
  intro other epoch earlier
  rw [sent_post, if_neg (fun both => Nat.ne_of_gt earlier both.2), Nat.add_zero]

end Extends

theorem epoch_readCounts (party : Party n) (task : Task) (attr : SyncAttr) :
    (party.readCounts task attr).epoch = party.epoch + 1 := by
  rw [readCounts]
  split
  · split <;> rfl
  all_goals rfl

theorem log_readCounts (party : Party n) (task : Task) (attr : SyncAttr) :
    (party.readCounts task attr).log = party.log := by
  rw [readCounts]
  split
  · split <;> rfl
  all_goals rfl

theorem unpolled_readCounts (party : Party n) (task : Task) (attr : SyncAttr) :
    (party.readCounts task attr).unpolled = party.unpolled := by
  rw [readCounts]
  split
  · split <;> rfl
  all_goals rfl

/-- A look at the sync request changes neither the epoch nor the log. -/
theorem frame_processSyncRequest {flag : Bool} {after : Party n}
    (processed : party.processSyncRequest flag = some after) :
    after.epoch = party.epoch ∧ after.log = party.log := by
  rw [processSyncRequest] at processed
  split at processed
  next => cases processed; exact ⟨rfl, rfl⟩
  next => cases processed; exact ⟨rfl, rfl⟩
  next => cases processed; exact ⟨rfl, rfl⟩
  next => cases processed

namespace Moves

variable {p : Fin n} {action : World.Action n} {after : Party n}

theorem tracked (moves : party.Moves p action after) (tracked : party.Tracked) :
    after.Tracked := by
  cases moves with
  | stays => exact tracked
  | post task kind peer => exact tracked.post task kind peer
  | complete first => exact tracked.complete first
  | localProgress polled => exact tracked.localProgress polled
  | remoteProgress wcs => exact tracked.remoteProgress _
  | drain idle task attr => exact tracked.drain idle task attr
  | readCounts drained => exact tracked.readCounts drained
  | exchange counted remoteMsgs => exact tracked.exchanged counted remoteMsgs
  | request ready accepted => exact tracked.request ready accepted
  | processSyncRequest active processed => exact tracked.processSyncRequest active processed

/-- Only a post adds to the log, and only the reading of the counts ends an epoch. -/
theorem frame (moves : party.Moves p action after) :
    (after.log = party.log ∧ party.epoch ≤ after.epoch) ∨
      ∃ task kind peer, action = .post p task kind peer ∧ after = party.post task kind peer := by
  cases moves with
  | post task kind peer => exact Or.inr ⟨task, kind, peer, rfl, rfl⟩
  | readCounts drained =>
      rw [log_readCounts, epoch_readCounts]
      exact Or.inl ⟨rfl, Nat.le_succ _⟩
  | request ready accepted =>
      rcases Option.map_eq_some_iff.mp accepted with ⟨verbs, _, rfl⟩
      exact Or.inl ⟨rfl, Nat.le_refl _⟩
  | processSyncRequest active processed =>
      rcases frame_processSyncRequest processed with ⟨epoch, log⟩
      exact Or.inl ⟨log, Nat.le_of_eq epoch.symm⟩
  | _ => exact Or.inl ⟨rfl, Nat.le_refl _⟩

theorem settled (moves : party.Moves p action after) : party.Extends after := by
  rcases moves.frame with ⟨log, epoch⟩ | ⟨task, kind, peer, _, rfl⟩
  · exact .of_log epoch log
  · exact .post party task kind peer

end Moves

end Party

namespace World

/-- The counters of all processes are conserved, and what was exchanged in earlier syncs is what
was posted before them. -/
structure Tracked (world : World n) : Prop where
  parties : ∀ p, (world.parties p).Tracked
  remoteMsgs : ∀ exchange ∈ world.exchanges, ∀ p,
    exchange.remoteMsgs p = ∑ q, exchange.counts q p
  superstep : ∀ exchange ∈ world.exchanges, ∀ q,
    exchange.superstep q < (world.parties q).epoch
  counts : ∀ exchange ∈ world.exchanges, ∀ q p,
    exchange.counts q p = (world.parties q).sent p (exchange.superstep q)

theorem tracked_initial (devices : Fin n → Device n) : (initial devices).Tracked where
  parties p := Party.tracked_initial (devices p)
  remoteMsgs := by
    intro exchange member
    cases member
  superstep := by
    intro exchange member
    cases member
  counts := by
    intro exchange member
    cases member

variable {world after : World n}

/-- Every process is told the sum of what all processes exchange for it. -/
theorem exchangeCounts_sum {counts : Fin n → Fin n → Int} {rounds : List (Fin n → Collective n)}
    {remoteMsgs : Fin n → Int} (execution : Spmd.Executes
      (fun p => exchangeCounts p (counts p) (List.finRange n) 0) rounds remoteMsgs)
    (p : Fin n) : remoteMsgs p = ∑ q, counts q p := by
  have : Nonempty (Fin n) := ⟨p⟩
  rcases exchangeCounts_executes counts (List.finRange n) fun _ => 0 with ⟨_, _, sums⟩
  rw [(execution.unique sums).2]
  exact if_pos (List.mem_finRange p)

theorem Tracked.step (tracked : world.Tracked) {action : Action n}
    (taken : Step world action after) : after.Tracked := by
  have moves := taken.moves
  have parties : ∀ p, (after.parties p).Tracked := fun p => (moves p).tracked (tracked.parties p)
  have superstep : ∀ exchange ∈ world.exchanges, ∀ q,
      exchange.superstep q < (after.parties q).epoch := by
    intro exchange member q
    exact Nat.lt_of_lt_of_le (tracked.superstep exchange member q) (moves q).settled.epoch
  have counts : ∀ exchange ∈ world.exchanges, ∀ q p,
      exchange.counts q p = (after.parties q).sent p (exchange.superstep q) := by
    intro exchange member q p
    rw [tracked.counts exchange member q p,
      (moves q).settled.sent p _ (tracked.superstep exchange member q)]
  by_cases isExchange : action = .exchange
  · subst isExchange
    rcases taken with ⟨task, attr, itsCounts, rounds, remoteMsgs, counted, execution, rfl⟩
    have begun : ∀ q, (world.parties q).epoch - 1 < (world.parties q).epoch := by
      intro q
      have epoch := (tracked.parties q).epoch
      rw [counted q, SyncPhase.begun] at epoch
      omega
    refine ⟨parties, ?_, ?_, ?_⟩
    · exact List.forall_mem_cons.mpr ⟨exchangeCounts_sum execution, tracked.remoteMsgs⟩
    · exact List.forall_mem_cons.mpr ⟨begun, superstep⟩
    · exact List.forall_mem_cons.mpr
        ⟨fun q => (tracked.parties q).counted _ _ _ (counted q), counts⟩
  · have same := taken.exchanges isExchange
    refine ⟨parties, ?_, ?_, ?_⟩
    · rw [same]
      exact tracked.remoteMsgs
    · rw [same]
      exact superstep
    · rw [same]
      exact counts

theorem Reachable.tracked {devices : Fin n → Device n}
    {permitted : World n → Action n → Prop} (run : Reachable devices permitted world) :
    world.Tracked := by
  apply run.invariant (tracked_initial devices)
  intro before action after tracked _ taken
  exact tracked.step taken

/-- In every operation the epoch is the superstep. -/
def Level (world : World n) : Prop :=
  ∀ p, ∀ op ∈ (world.parties p).log, op.epoch = op.superstep

/-- A process that may post has read its counts as often as it has completed a sync. -/
theorem Tracked.epoch_of_quiet (tracked : world.Tracked) {pid peer : Fin n} {task : Task}
    {kind : OperationKind} (quiet : world.Quiet (.post pid task kind peer)) :
    (world.parties pid).epoch = (world.parties pid).superstep := by
  have epoch := (tracked.parties pid).epoch
  rcases quiet with ⟨idle | ⟨_, _, drained⟩, inactive⟩
  · rw [idle, inactive] at epoch
    exact epoch
  · rw [drained, inactive] at epoch
    exact epoch

theorem Level.step (level : world.Level) (tracked : world.Tracked) {action : Action n}
    (quiet : world.Quiet action) (taken : Step world action after) : after.Level := by
  intro p op member
  rcases (taken.moves p).frame with ⟨log, _⟩ | ⟨task, kind, peer, rfl, posted⟩
  · rw [log] at member
    exact level p op member
  · rw [posted] at member
    rcases Multiset.mem_cons.mp member with rfl | old
    · exact tracked.epoch_of_quiet quiet
    · exact level p op old

/-- What is exchanged in a quiet run are the notifications of a superstep. -/
theorem Level.notifications (level : world.Level) (p peer : Fin n) (superstep : ℕ) :
    (world.parties p).notifications peer superstep = (world.parties p).sent peer superstep := by
  apply Multiset.countP_congr rfl
  intro op member
  rw [level p op member]

theorem Reachable.level {devices : Fin n → Device n} (run : Reachable devices Quiet world) :
    world.Level := by
  apply run.invariant_of (fun _ reached => Reachable.tracked reached)
  · intro p op member
    cases Multiset.notMem_zero op member
  · intro before action after tracked _ level quiet taken
    exact level.step tracked quiet taken

end World

section Uniform

variable (attrs : ℕ → SyncAttr)

/-- Whether a number is cached before each sync of a sequence. -/
def cachedBefore : ℕ → Bool
  | 0 => false
  | k + 1 => cachedAfter (attrs k).mode (cachedBefore k)

/-- The syncs of a sequence that exchange the counts. -/
def Exchanges (k : ℕ) : Prop :=
  (attrs k).mode = .default ∨ (attrs k).mode = .cached ∧ cachedBefore attrs k = false

instance : DecidablePred (Exchanges attrs) := fun _ => inferInstanceAs (Decidable (_ ∨ _))

/-- A process that is in line with the sequence after `done` exchanges. -/
def Party.Follows (party : Party n) (done : ℕ) : Prop :=
  match party.phase with
  | .idle | .ready _ _ _ => party.verbs.syncCached = cachedBefore attrs party.epoch ∧
      done = Nat.count (Exchanges attrs) party.epoch
  | .drained _ attr => party.verbs.syncCached = cachedBefore attrs party.epoch ∧
      done = Nat.count (Exchanges attrs) party.epoch ∧ attr = attrs party.epoch
  | .counted _ attr _ => ∃ k, party.epoch = k + 1 ∧ attr = attrs k ∧ Exchanges attrs k ∧
      done = Nat.count (Exchanges attrs) k ∧
      (attr.mode = .default ∨ party.verbs.syncCached = cachedBefore attrs (k + 1))

variable {attrs} {party : Party n} {done : ℕ}

/-- A sync that does not exchange the counts is over for the sequence. -/
theorem count_of_silent {k : ℕ} (silent : ¬Exchanges attrs k)
    (count : done = Nat.count (Exchanges attrs) k) :
    done = Nat.count (Exchanges attrs) (k + 1) := by
  rw [Nat.count_succ, if_neg silent, Nat.add_zero]
  exact count

theorem Party.Follows.readCounts {task : Task} {attr : SyncAttr}
    (follows : party.Follows attrs done) (drained : party.phase = .drained task attr) :
    (party.readCounts task attr).Follows attrs done := by
  simp only [Party.Follows, drained] at follows
  rcases follows with ⟨cached, count, rfl⟩
  simp only [Party.readCounts]
  cases mode : (attrs party.epoch).mode with
  | default => exact ⟨party.epoch, rfl, rfl, Or.inl mode, count, Or.inl mode⟩
  | cached =>
      dsimp only
      split
      next already =>
        have before : cachedBefore attrs party.epoch = true := cached.symm.trans already
        refine ⟨?_, count_of_silent ?_ count⟩
        · simp only [cachedBefore, mode, cachedAfter]
          exact already
        · simp [Exchanges, mode, before]
      next fresh =>
        have before : cachedBefore attrs party.epoch = false :=
          cached.symm.trans (Bool.not_eq_true _ ▸ fresh)
        refine ⟨party.epoch, rfl, rfl, Or.inr ⟨mode, before⟩, count, Or.inr ?_⟩
        simp only [cachedBefore, mode, cachedAfter]
  | msg =>
      refine ⟨?_, count_of_silent ?_ count⟩
      · simp only [cachedBefore, mode, cachedAfter]
        exact cached
      · simp [Exchanges, mode]
  | unknown =>
      refine ⟨?_, count_of_silent ?_ count⟩
      · simp only [cachedBefore, mode, cachedAfter]
        exact cached
      · simp [Exchanges, mode]

theorem Party.Follows.exchanged {task : Task} {attr : SyncAttr} {counts : Fin n → Int}
    (follows : party.Follows attrs done) (counted : party.phase = .counted task attr counts)
    (remoteMsgs : Int) : (party.exchanged task attr remoteMsgs).Follows attrs (done + 1) := by
  simp only [Party.Follows, counted] at follows
  rcases follows with ⟨k, epoch, rfl, exchanges, count, cached⟩
  refine ⟨?_, ?_⟩
  · simp only [Party.exchanged, storeCount, epoch]
    by_cases isDefault : (attrs k).mode = .default
    · rw [if_pos isDefault, cachedBefore, isDefault]
      rfl
    · rw [if_neg isDefault]
      exact cached.resolve_left isDefault
  · show done + 1 = Nat.count (Exchanges attrs) party.epoch
    rw [epoch, Nat.count_succ, if_pos exchanges, count]

/-- Every other step of a process leaves it in line. -/
theorem Party.Moves.follows {p : Fin n} {action : World.Action n} {after : Party n}
    (moves : party.Moves p action after) (other : action ≠ .exchange)
    (uniform : ∀ task attr, action = .drain p task attr → attr = attrs party.epoch)
    (follows : party.Follows attrs done) : after.Follows attrs done := by
  cases moves with
  | stays => exact follows
  | post task kind peer =>
      have same : (kind.post party.verbs peer).syncCached = party.verbs.syncCached := by
        rw [OperationKind.post_eq]
        rfl
      simp only [Party.Follows, Party.post, same] at follows ⊢
      exact follows
  | complete first => exact follows
  | localProgress polled => exact follows
  | remoteProgress wcs =>
      rw [Party.doRemoteProgress_eq]
      exact follows
  | drain idle task attr =>
      simp only [Party.Follows, idle] at follows
      exact ⟨follows.1, follows.2, uniform task attr rfl⟩
  | readCounts drained => exact follows.readCounts drained
  | exchange => exact absurd rfl other
  | request ready accepted =>
      rcases Option.map_eq_some_iff.mp accepted with ⟨verbs, requests, rfl⟩
      simp only [Party.Follows, ready] at follows
      rw [requestSync] at requests
      split at requests
      next => cases requests
      next =>
        rw [Option.some.injEq] at requests
        subst requests
        exact follows
  | processSyncRequest active processed =>
      rename_i flag
      rw [Party.processSyncRequest] at processed
      rcases Party.processSyncRequest_cases party.verbs flag with waits | faults |
        ⟨recvCounts, syncRequest, ⟨starts, _⟩ | ⟨completes, _⟩⟩
      · rw [waits, Option.some.injEq] at processed
        rw [← processed]
        exact follows
      · rw [faults] at processed
        cases processed
      · rw [starts, Option.some.injEq] at processed
        rw [← processed]
        exact follows
      · rw [completes, Option.some.injEq] at processed
        rw [← processed]
        exact follows

namespace World

variable {world after : World n}

/-- All processes are in line with the same sequence, and so were their exchanges. -/
structure InLine (attrs : ℕ → SyncAttr) (world : World n) : Prop where
  follows : ∀ p, (world.parties p).Follows attrs world.exchanges.length
  together : ∀ exchange ∈ world.exchanges, ∀ p q, exchange.superstep p = exchange.superstep q

theorem inLine_initial (devices : Fin n → Device n) : (initial devices).InLine attrs := by
  constructor
  · intro p
    exact ⟨rfl, rfl⟩
  · intro exchange member
    cases member

theorem InLine.step (inLine : world.InLine attrs) {action : Action n}
    (uniform : world.Uniform attrs action) (taken : Step world action after) :
    after.InLine attrs := by
  by_cases isExchange : action = .exchange
  · subst isExchange
    rcases taken with ⟨task, attr, counts, rounds, remoteMsgs, counted, execution, rfl⟩
    refine ⟨fun p => (inLine.follows p).exchanged (counted p) (remoteMsgs p), ?_⟩
    rw [List.forall_mem_cons]
    refine ⟨?_, inLine.together⟩
    intro p q
    have follows := inLine.follows p
    have followsToo := inLine.follows q
    simp only [Party.Follows, counted] at follows followsToo
    rcases follows with ⟨k, epoch, _, exchanges, count, _⟩
    rcases followsToo with ⟨l, epochToo, _, exchangesToo, countToo, _⟩
    -- both syncs are the one with the same number of exchanges before it
    have same : k = l := Nat.count_injective exchanges exchangesToo (count.symm.trans countToo)
    show (world.parties p).epoch - 1 = (world.parties q).epoch - 1
    rw [epoch, epochToo, same]
  · have same := taken.exchanges isExchange
    refine ⟨?_, ?_⟩
    · intro p
      rw [same]
      apply (taken.moves p).follows isExchange _ (inLine.follows p)
      rintro task attr rfl
      exact uniform
    · rw [same]
      exact inLine.together

theorem Reachable.inLine {devices : Fin n → Device n}
    (run : Reachable devices (Uniform attrs) world) : world.InLine attrs := by
  apply run.invariant (inLine_initial devices)
  intro before action after inLine uniform taken
  exact inLine.step uniform taken

theorem Reachable.next {devices : Fin n → Device n} {permitted : World n → Action n → Prop}
    (run : Reachable devices permitted world) (action : Action n)
    (allowed : permitted world action) (taken : Step world action after) :
    Reachable devices permitted after := run.tail allowed taken

/-- All processes can exchange the counts that they have read. -/
theorem Reachable.exchange {devices : Fin n → Device n} {permitted : World n → Action n → Prop}
    (run : Reachable devices permitted world) (allowed : permitted world .exchange)
    (task : Fin n → Task) (attr : Fin n → SyncAttr) (counts : Fin n → Fin n → Int)
    (counted : ∀ p, (world.parties p).phase = .counted (task p) (attr p) (counts p)) :
    ∃ remoteMsgs, Reachable devices permitted { world with
      parties := fun p => (world.parties p).exchanged (task p) (attr p) (remoteMsgs p)
      exchanges := ⟨fun p => (world.parties p).epoch - 1, counts, remoteMsgs⟩ ::
        world.exchanges } := by
  rcases exchangeCounts_executes counts (List.finRange n) fun _ => 0 with ⟨_, _, execution⟩
  exact ⟨_, run.next .exchange allowed ⟨task, attr, counts, _, _, counted, execution, rfl⟩⟩

end World

end Uniform

end IBVerbs

end Talpf
