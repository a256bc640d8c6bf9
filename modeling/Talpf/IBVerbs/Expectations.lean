import Talpf.IBVerbs.Deliveries

/-!
# Syncs that know how many messages to expect

Without a barrier a process that expects no message may run ahead of the others
without bound.  If every sync waits for the number of messages of its superstep,
the messages of different supersteps are still told apart by their tags, unless
a notification arrives at a process that is 1024 supersteps or more behind.
-/

namespace Talpf

namespace IBVerbs

variable {n : ℕ}

namespace World

variable {world after : World n} {action : Action n} {expected : Fin n → ℕ → ℕ}

/-- Every sync has the MSG or the CACHED mode and no barrier. -/
def Barrierless (_ : World n) : Action n → Prop
  | .drain _ _ attr => attr.barrier = false ∧ (attr.mode = .msg ∨ attr.mode = .cached)
  | _ => True

/-- Every sync waits for the number of messages of its superstep. -/
def Expected (expected : Fin n → ℕ → ℕ) (world : World n) : Action n → Prop
  | .post pid _ _ peer => world.notified peer (world.parties pid).superstep <
      expected peer (world.parties pid).superstep
  | .request pid => ∀ task barrier remoteMsgs,
      (world.parties pid).phase = .ready task barrier remoteMsgs →
        remoteMsgs = expected pid (world.parties pid).superstep
  | _ => True

/-- No notification arrives 1024 supersteps early. -/
def Near (world : World n) : Action n → Prop
  | .remoteProgress pid wcs => ∀ wc ∈ wcs, wc.superstep < (world.parties pid).superstep + 1024
  | _ => True

/-- The messages of the supersteps that a process has counted are all there are. -/
structure Exhausts (expected : Fin n → ℕ → ℕ) (world : World n) : Prop where
  bounded : ∀ p superstep, world.notified p superstep ≤ expected p superstep
  counted : ∀ p superstep, superstep < (world.parties p).taken →
    world.notified p superstep = expected p superstep
  remoteMsgs : ∀ p, (world.parties p).verbs.syncRequest.isActive = true →
    (world.parties p).verbs.syncRequest.secondPhase = false →
      (world.parties p).verbs.syncRequest.remoteMsgs =
        expected p (world.parties p).superstep

theorem exhausts_initial (devices : Fin n → Device n) :
    (initial devices).Exhausts expected where
  bounded := by
    intro p superstep
    have nothing : (initial devices).addressed p = 0 :=
      Finset.sum_eq_zero fun q _ => Multiset.filter_zero _
    rw [notified, nothing]
    exact Nat.zero_le _
  counted := by
    intro p superstep counted
    cases counted
  remoteMsgs := by
    intro p active
    cases active

namespace Exhausts

/-- What is expected is never late, and every sync waits for all of it. -/
theorem punctual (exhausts : world.Exhausts expected) (settled : world.Settled)
    (allowed : world.Expected expected action) (near : world.Near action) :
    world.Punctual action := by
  cases action with
  | post pid task kind peer =>
      by_contra late
      have counted := exhausts.counted peer _ (Nat.lt_of_not_le late)
      have fewer : world.notified peer (world.parties pid).superstep < _ := allowed
      omega
  | remoteProgress pid wcs =>
      intro wc member
      have ahead := near wc member
      rw [Party.taken]
      omega
  | processSyncRequest pid flag =>
      intro entry counts
      have first := (settled.phased pid).first counts.2.1
      rw [exhausts.remoteMsgs pid counts.1 first]
      exact_mod_cast exhausts.bounded pid _
  | _ => trivial

theorem step (exhausts : world.Exhausts expected) (settled : world.Settled)
    (tracked : world.Tracked) (allowed : world.Expected expected action)
    (near : world.Near action) (taken : Step world action after) : after.Exhausts expected where
  bounded := by
    intro p superstep
    rcases taken.notified p superstep with same | ⟨q, task, kind, rfl, rfl, more⟩
    · exact same.symm ▸ exhausts.bounded p superstep
    · rw [more]
      exact allowed
  counted := by
    intro p superstep counted
    have before : world.notified p superstep = expected p superstep := by
      cases ((taken.moves p).turns (settled.phased p)).2 with
      | keeps _ same => exact exhausts.counted p superstep (same ▸ counted)
      | receives _ _ same => exact exhausts.counted p superstep (same ▸ counted)
      | counts counts _ next =>
          rw [next] at counted
          rcases Nat.lt_succ_iff_lt_or_eq.mp counted with earlier | rfl
          · exact exhausts.counted p superstep earlier
          · have exactly := settled.countsExactly tracked counts
              (exhausts.punctual settled allowed near _ counts)
            have first := (settled.phased p).first counts.2.1
            have waits := exhausts.remoteMsgs p counts.1 first
            rw [(settled.phased p).taken_of_counts counts]
            exact_mod_cast exactly.remoteMsgs.symm.trans waits
    rcases taken.notified p superstep with same | ⟨q, task, kind, rfl, rfl, more⟩
    · exact same.trans before
    · have fewer : world.notified p (world.parties q).superstep < _ := allowed
      omega
  remoteMsgs := by
    intro p active first
    rcases (taken.moves p).request_cases with ⟨request, superstep⟩ |
      ⟨task, barrier, remoteMsgs, rfl, ready, _, superstep, _, request⟩ | second | inactive
    · rw [request] at active first ⊢
      rw [superstep]
      exact exhausts.remoteMsgs p active first
    · rw [request, superstep]
      exact allowed task barrier remoteMsgs ready
    · exact absurd (first.symm.trans second) (by decide)
    · exact absurd (active.symm.trans inactive) (by decide)

end Exhausts

/-- A run in which every sync waits for the messages of its superstep, and none of them arrives
1024 supersteps early -/
theorem Reachable.exhausts {devices : Fin n → Device n} (run : Reachable devices
    (fun world action => world.Expected expected action ∧ world.Near action) world) :
    world.Settled ∧ world.Exhausts expected := by
  apply run.invariant_of (fun _ reached => Reachable.tracked reached)
    ⟨settled_initial devices, exhausts_initial devices⟩
  rintro before action after tracked _ ⟨settled, exhausts⟩ ⟨allowed, near⟩ taken
  exact ⟨settled.step tracked (exhausts.punctual settled allowed near) taken,
    exhausts.step settled tracked allowed near taken⟩

/-- No request of a run without barriers has one. -/
theorem Reachable.unbarred {devices : Fin n → Device n} (run : Reachable devices Barrierless world)
    (p : Fin n) : (world.parties p).WithBarrier false :=
  Reachable.withBarrier run (fun _ _ _ _ barrierless => barrierless.1) p

/-- A request without barrier counts its messages when it completes. -/
theorem Completes.counts {p : Fin n} (completes : world.Completes p after)
    (unbarred : (world.parties p).WithBarrier false) : ∃ entry, (world.parties p).Counts entry ∧
      (after.parties p).verbs.recvCounts =
        ((world.parties p).verbs.takeRecvs entry).recvCounts := by
  rcases completes with ⟨flag, ⟨party, active, processed, rfl⟩, next⟩
  simp only [move, Function.update_self] at next ⊢
  rcases Party.look_effect active processed with rfl | ⟨stays, _⟩ |
    ⟨_, _, ⟨withBarrier, _⟩ | counts⟩
  · omega
  · omega
  · exact absurd (withBarrier.symm.trans (unbarred.request active)) (by decide)
  · exact counts

/-- A request without barrier that has its messages completes. -/
theorem processSyncRequest_released {verbs : IBVerbs n} {entry : Fin 1024} (flag : Bool)
    (without : verbs.syncRequest.withBarrier = false) (index : verbs.syncIndex = some entry)
    (enough : verbs.syncRequest.remoteMsgs ≤ verbs.recvCounts entry) :
    verbs.processSyncRequest flag =
      .complete (verbs.takeRecvs entry).releaseRequest verbs.syncRequest.task := by
  rw [IBVerbs.processSyncRequest, if_neg fun both => Bool.false_ne_true (without ▸ both.1), index]
  simp only [ge_iff_le, enough, if_true, without, Bool.false_eq_true, if_false]

theorem syncIndex_start {verbs : IBVerbs n} (start : verbs.syncCounter = BitVec.ofNat 32 0) :
    verbs.syncIndex = some 0 := by
  have nonneg : verbs.syncCounter.toNat < 2 ^ 31 := by
    rw [start]
    decide
  rcases Option.map_eq_some_iff.mp (syncIndex_of_nonneg nonneg) with ⟨entry, index, value⟩
  have isZero : entry = 0 := by
    apply Fin.ext
    rw [value, start]
    rfl
  rw [index, isZero]

/-- A request with a barrier that has its messages enters its barrier. -/
theorem exists_second {party : Party n} (barrier : party.verbs.syncRequest.withBarrier = true)
    (first : party.verbs.syncRequest.secondPhase = false) {entry : Fin 1024}
    (index : party.verbs.syncIndex = some entry)
    (enough : party.verbs.syncRequest.remoteMsgs ≤ party.verbs.recvCounts entry) :
    ∃ after, party.processSyncRequest false = some after ∧ after.phase = party.phase ∧
      after.verbs.syncRequest.isActive = party.verbs.syncRequest.isActive ∧
      after.verbs.syncRequest.withBarrier = true ∧ after.verbs.syncRequest.secondPhase = true ∧
      after.superstep = party.superstep := by
  rw [Party.processSyncRequest, IBVerbs.processSyncRequest,
    if_neg fun both => Bool.false_ne_true (first ▸ both.2), index]
  simp only [ge_iff_le, enough, if_true, barrier]
  exact ⟨_, rfl, rfl, rfl, barrier, rfl, rfl⟩

/-- The request completes when the barrier has ended. -/
theorem exists_finished {party : Party n} (barrier : party.verbs.syncRequest.withBarrier = true)
    (second : party.verbs.syncRequest.secondPhase = true) :
    ∃ after, party.processSyncRequest true = some after ∧ after.phase = party.phase ∧
      after.verbs.syncRequest.isActive = false ∧ after.superstep = party.superstep + 1 := by
  rw [Party.processSyncRequest, IBVerbs.processSyncRequest, if_pos ⟨barrier, second⟩]
  exact ⟨_, rfl, rfl, rfl, rfl⟩

/-- The next look at such a request completes it. -/
theorem exists_completes {p : Fin n} {entry : Fin 1024} (counts : (world.parties p).Counts entry)
    (without : (world.parties p).verbs.syncRequest.withBarrier = false) :
    ∃ after, world.Completes p after := by
  rcases counts with ⟨active, _, index, enough⟩
  have released := processSyncRequest_released false without index enough
  have processed : ∃ party, (world.parties p).processSyncRequest false = some party ∧
      party.superstep = (world.parties p).superstep + 1 := by
    rw [Party.processSyncRequest, released]
    exact ⟨_, rfl, rfl⟩
  rcases processed with ⟨party, processed, next⟩
  refine ⟨world.move p party, false, ⟨party, active, processed, rfl⟩, ?_⟩
  simp only [move, Function.update_self]
  exact next

/-- The sync that completes a superstep has counted exactly the messages of that superstep, in every
run in which no notification arrives 1024 supersteps early.  A run ends at the first look with a
negative index of the ring, which comes after `2 ^ 31` syncs (`syncIndex_eq_recvIndex_iff`). -/
theorem completes_countsExactly (devices : Fin n → Device n) (expected : Fin n → ℕ → ℕ)
    (run : Reachable devices (fun world action => world.Barrierless action ∧
      world.Expected expected action ∧ world.Near action) world)
    {p : Fin n} (completes : world.Completes p after) :
    ∃ entry, world.CountsExactly p entry ∧ (after.parties p).verbs.recvCounts entry = 0 := by
  have tracked := Reachable.tracked run
  have unbarred := Reachable.unbarred (run.mono fun _ _ all => all.1) p
  rcases Reachable.exhausts (run.mono fun _ _ all => all.2) with ⟨settled, exhausts⟩
  rcases completes.counts unbarred with ⟨entry, counts, recvCounts⟩
  have first := (settled.phased p).first counts.2.1
  have enough : (world.notified p (world.parties p).superstep : Int) ≤
      (world.parties p).verbs.syncRequest.remoteMsgs := by
    rw [exhausts.remoteMsgs p counts.1 first]
    exact_mod_cast exhausts.bounded p _
  have exactly := settled.countsExactly tracked counts enough
  exact ⟨entry, exactly, recvCounts ▸ exactly.recvCounts_takeRecvs⟩

/-- Process 0 expects one message in superstep 0 and one in superstep 1024. -/
def farExpected (p : Fin 2) (superstep : ℕ) : ℕ :=
  if p.val = 0 then (if superstep = 0 then 1 else 0) + (if superstep = 1024 then 1 else 0) else 0

/-- A process that has ended supersteps without any message -/
def ahead (superstep : ℕ) : Party 2 :=
  { Party.initial (.generous 2) with
    verbs :=
      { IBVerbs.initial (.generous 2) with syncCounter := BitVec.ofNat 32 superstep }
    superstep := superstep
    epoch := superstep }

/-- Runs in which no notification arrives -/
abbrev FarRun : World 2 → Prop :=
  Reachable (fun _ => .generous 2) fun world action => world.Barrierless action ∧
    world.Expected farExpected action ∧ ∀ pid wcs, action ≠ .remoteProgress pid wcs

/-- Two processes and what is on its way to the first one -/
def pair (zero one : Party 2) (travelling : Multiset (Posted 2)) : World 2 where
  parties := fun p => if p.val = 0 then zero else one
  travelling := fun p => if p.val = 0 then travelling else 0
  exchanges := []

theorem update_pair {α : Type} (zero one other : α) :
    Function.update (fun p : Fin 2 => if p.val = 0 then zero else one) 0 other =
        (fun p => if p.val = 0 then other else one) ∧
      Function.update (fun p : Fin 2 => if p.val = 0 then zero else one) 1 other =
        (fun p => if p.val = 0 then zero else other) :=
  ⟨funext (Fin.forall_fin_two.mpr ⟨rfl, rfl⟩), funext (Fin.forall_fin_two.mpr ⟨rfl, rfl⟩)⟩

variable {zero one : Party 2} {travelling : Multiset (Posted 2)}

theorem pair_move_zero (after : Party 2) :
    (pair zero one travelling).move 0 after = pair after one travelling := by
  rw [move, pair, (update_pair zero one after).1, pair]

theorem pair_move_one (after : Party 2) :
    (pair zero one travelling).move 1 after = pair zero after travelling := by
  rw [move, pair, (update_pair zero one after).2, pair]

/-- Nothing is subtracted from an empty ring for a sync that expects nothing. -/
theorem takeRecvs_nothing (recvCounts : Fin 1024 → Int) (entry : Fin 1024) :
    Function.update recvCounts entry (recvCounts entry - 0) = recvCounts := by
  rw [Int.sub_zero, Function.update_eq_self]

theorem eventsDecrease_eventsIncrease (events : Task → Int) (task : Task) :
    eventsDecrease (eventsIncrease events task) task = events := by
  funext other
  rw [Party.eventsDecrease_apply, Party.eventsIncrease_apply, Int.add_sub_cancel]

/-- The same process with its next request -/
def asking (superstep : ℕ) : Party 2 :=
  { ahead superstep with
    verbs := { (ahead superstep).verbs with syncRequest := ⟨true, false, 0, some 6, false⟩ }
    events := eventsIncrease (ahead superstep).events 6
    epoch := superstep + 1 }

/-- The entry of a superstep that syncs can still be counted for -/
theorem asking_index {superstep : ℕ} (atMost : superstep ≤ 2 ^ 31) :
    ∃ entry, (asking superstep).verbs.syncIndex = some entry := by
  have counter : (asking superstep).verbs.syncCounter.toNat = superstep := by
    show (BitVec.ofNat 32 superstep).toNat = superstep
    rw [BitVec.toNat_ofNat]
    omega
  rcases atMost.lt_or_eq with small | rfl
  · rcases Option.map_eq_some_iff.mp (syncIndex_of_nonneg (counter ▸ small)) with ⟨entry, index, _⟩
    exact ⟨entry, index⟩
  · have index := syncIndex_of_neg counter.ge
    rw [counter, if_pos (by decide)] at index
    rcases Option.map_eq_some_iff.mp index with ⟨entry, index, _⟩
    exact ⟨entry, index⟩

theorem asking_completes {superstep : ℕ} (atMost : superstep ≤ 2 ^ 31) :
    (asking superstep).processSyncRequest false = some (ahead (superstep + 1)) := by
  rcases asking_index atMost with ⟨entry, index⟩
  have counter : BitVec.ofNat 32 (superstep + 1) = BitVec.ofNat 32 superstep + 1 :=
    BitVec.ofNat_add superstep 1
  have ring := takeRecvs_nothing (fun _ => 0) entry
  have events := eventsDecrease_eventsIncrease (fun _ => 0) 6
  rw [Party.processSyncRequest, processSyncRequest_released false rfl index (Int.le_refl 0)]
  simp only [ahead, asking, takeRecvs, releaseRequest, IBVerbs.initial, Party.initial,
    SyncRequest.initial, Option.elim_some, counter, ring, events]

theorem eq_pair {world : World 2} (atZero : world.parties 0 = zero) (atOne : world.parties 1 = one)
    (toZero : world.travelling 0 = travelling) (toOne : world.travelling 1 = 0)
    (exchanges : world.exchanges = []) : world = pair zero one travelling := by
  rcases world with ⟨parties, itsTravelling, itsExchanges⟩
  subst atZero atOne toZero exchanges
  have sameParties : parties = fun p => if p.val = 0 then parties 0 else parties 1 :=
    funext (Fin.forall_fin_two.mpr ⟨rfl, rfl⟩)
  have sameTravelling : itsTravelling = fun p => if p.val = 0 then itsTravelling 0 else 0 :=
    funext (Fin.forall_fin_two.mpr ⟨rfl, toOne⟩)
  rw [pair, ← sameParties, ← sameTravelling]

theorem FarRun.pair {world : World 2} (run : FarRun world) (atZero : world.parties 0 = zero)
    (atOne : world.parties 1 = one) (toZero : world.travelling 0 = travelling)
    (toOne : world.travelling 1 = 0) (exchanges : world.exchanges = []) :
    FarRun (pair zero one travelling) :=
  eq_pair atZero atOne toZero toOne exchanges ▸ run

theorem pair_initial : initial (fun _ => .generous 2) = pair (.initial (.generous 2)) (ahead 0) 0 :=
  eq_pair rfl rfl rfl rfl rfl

/-- A sync that expects nothing is complete at once. -/
theorem ahead_run {superstep : ℕ} (within : superstep ≤ 1024) :
    FarRun (pair (.initial (.generous 2)) (ahead superstep) 0) := by
  induction superstep with
  | zero =>
      rw [← pair_initial]
      exact Transition.Reachable.refl
  | succ k ih =>
      have run := ih (Nat.le_of_succ_le within)
      have drained := run.next (.drain 1 6 (.msg 0)) ⟨⟨rfl, Or.inl rfl⟩, trivial, nofun⟩
        ⟨rfl, Int.lt_irrefl 0, rfl⟩
      rw [pair_move_one] at drained
      have counted := drained.next (.readCounts 1) ⟨trivial, trivial, nofun⟩ ⟨6, .msg 0, rfl, rfl⟩
      rw [pair_move_one] at counted
      have expects : (pair (.initial (.generous 2))
          { ahead k with phase := .ready 6 false 0, epoch := k + 1 } 0).Expected
            farExpected (.request 1) := by
        intro _ _ _ phase
        cases phase
        rfl
      have requested := counted.next (.request 1) ⟨trivial, expects, nofun⟩
        ⟨6, false, 0, asking k, rfl, rfl, rfl⟩
      rw [pair_move_one] at requested
      have completed := requested.next (.processSyncRequest 1 false) ⟨trivial, trivial, nofun⟩
        ⟨ahead (k + 1), rfl, asking_completes (by omega), rfl⟩
      rw [pair_move_one] at completed
      exact completed

/-- What process 0 posts to itself -/
def nearOp : Posted 2 := ⟨5, ⟨0, Nat.zero_lt_two⟩, 0, 0, 0⟩

/-- What process 1 posts to process 0 -/
def farOp : Posted 2 := ⟨5, ⟨0, Nat.zero_lt_two⟩, BitVec.ofNat 32 1024, 1024, 1024⟩

/-- Process 0 after it has sent itself a message and has polled the completion -/
def sender : Party 2 :=
  { Party.initial (.generous 2) with
    verbs := (IBVerbs.initial (.generous 2)).put ⟨0, Nat.zero_lt_two⟩ |>.doLocalProgress 1
    log := {nearOp} }

/-- The same process in the wait for its message -/
def waiting : Party 2 :=
  { sender with
    verbs := { sender.verbs.clearMsgsSync with syncRequest := ⟨true, false, 1, some 6, false⟩ }
    events := eventsIncrease (fun _ => 0) 6
    epoch := 1 }

theorem waiting_run {superstep : ℕ} (within : superstep ≤ 1024) :
    FarRun (pair waiting (ahead superstep) {nearOp}) := by
  have nothing : (pair (.initial (.generous 2)) (ahead superstep) 0).notified 0 0 = 0 := by
    rw [notified_eq_sum, Fin.sum_univ_two]
    rfl
  have due : (pair (.initial (.generous 2)) (ahead superstep) 0).Expected farExpected
      (.post 0 5 .put 0) := by
    show (pair (.initial (.generous 2)) (ahead superstep) 0).notified 0 0 < 1
    rw [nothing]
    exact Nat.zero_lt_one
  have posted := (ahead_run within).next (.post 0 5 .put 0) ⟨trivial, due, nofun⟩ rfl
  have completed := posted.next (.complete 0 nearOp) ⟨trivial, trivial, nofun⟩ ⟨0, rfl, rfl⟩
  have polled := completed.next (.localProgress 0 [nearOp]) ⟨trivial, trivial, nofun⟩ ⟨0, rfl, rfl⟩
  have events := eventsDecrease_eventsIncrease (fun _ => 0) 5
  have polled : FarRun (pair sender (ahead superstep) {nearOp}) := by
    have party := congrArg (fun events => { sender with events := events }) events
    exact FarRun.pair polled party rfl rfl rfl rfl
  have drained := polled.next (.drain 0 6 (.msg 1)) ⟨⟨rfl, Or.inl rfl⟩, trivial, nofun⟩
    ⟨rfl, Int.lt_irrefl 0, rfl⟩
  rw [pair_move_zero] at drained
  have counted := drained.next (.readCounts 0) ⟨trivial, trivial, nofun⟩ ⟨6, .msg 1, rfl, rfl⟩
  rw [pair_move_zero] at counted
  have expects : (pair { sender with
      verbs := sender.verbs.clearMsgsSync
      phase := .ready 6 false 1
      epoch := 1 } (ahead superstep) {nearOp}).Expected farExpected (.request 0) := by
    intro _ _ _ phase
    cases phase
    rfl
  have requested := counted.next (.request 0) ⟨trivial, expects, nofun⟩
    ⟨6, false, 1, waiting, rfl, rfl, rfl⟩
  rw [pair_move_zero] at requested
  exact requested

/-- Both messages are expected. -/
theorem notified_far {world : World 2} (logZero : (world.parties 0).log = {nearOp})
    (logOne : (world.parties 1).log = {farOp}) (q : Fin 2) (superstep : ℕ) :
    world.notified q superstep = farExpected q superstep := by
  rw [notified_eq_sum, Fin.sum_univ_two, Party.notifications, Party.notifications, logZero, logOne,
    ← Multiset.cons_zero, ← Multiset.cons_zero, Multiset.countP_cons, Multiset.countP_cons,
    farExpected]
  revert q
  rw [Fin.forall_fin_two]
  simp [nearOp, farOp, eq_comm]

/-- A message of superstep 1024 is taken for one of superstep 0 that has not arrived. -/
theorem not_completes_countsExactly : ¬∀ (n : ℕ) (devices : Fin n → Device n)
    (expected : Fin n → ℕ → ℕ) (world after : World n) (p : Fin n),
    Reachable devices (fun world action => world.Barrierless action ∧
      world.Expected expected action) world →
    (∀ q superstep, after.notified q superstep = expected q superstep) →
    world.Completes p after → ∃ entry, world.CountsExactly p entry := by
  intro exact
  have started : Reachable (fun _ => .generous 2) (fun world action =>
      world.Barrierless action ∧ world.Expected farExpected action)
      (pair waiting (ahead 1024) {nearOp}) :=
    (waiting_run (Nat.le_refl 1024)).mono fun _ _ all => ⟨all.1, all.2.1⟩
  have due : (pair waiting (ahead 1024) {nearOp}).Expected farExpected (.post 1 5 .put 0) := by
    show (pair waiting (ahead 1024) {nearOp}).notified 0 1024 < 1
    rw [notified_eq_sum, Fin.sum_univ_two]
    decide
  have posted := started.next (.post 1 5 .put 0) ⟨trivial, due⟩ rfl
  have arrived := posted.next (.remoteProgress 0 [farOp]) ⟨trivial, trivial⟩ ⟨{nearOp}, rfl, rfl⟩
  rcases exact 2 _ farExpected _ _ 0 arrived (notified_far rfl rfl)
    ⟨false, ⟨_, rfl, rfl, rfl⟩, rfl⟩ with ⟨entry, exactly⟩
  have late := exactly.delivered nearOp (Multiset.mem_singleton_self nearOp)
  exact absurd late (by decide)

/-- Process 0 gets its own message and completes its sync. -/
theorem completes_countsExactly_pair : ∃ world after : World 2, world.Completes 0 after ∧
    world.notified 0 0 = 1 ∧
      ∃ entry, world.CountsExactly 0 entry ∧ (after.parties 0).verbs.recvCounts entry = 0 := by
  have started : Reachable (fun _ => .generous 2) (fun world action => world.Barrierless action ∧
      world.Expected farExpected action ∧ world.Near action)
      (pair waiting (ahead 0) {nearOp}) := by
    apply (waiting_run (Nat.zero_le 1024)).mono
    rintro world action ⟨barrierless, expects, unpolled⟩
    refine ⟨barrierless, expects, ?_⟩
    cases action with
    | remoteProgress pid wcs => exact absurd rfl (unpolled pid wcs)
    | _ => trivial
  have arrived := started.next (.remoteProgress 0 [nearOp]) ⟨trivial, trivial, by
    intro wc member
    rw [List.mem_singleton.mp member]
    decide⟩ ⟨0, rfl, rfl⟩
  have notified : ∀ {world : World 2}, (world.parties 0).log = {nearOp} →
      (world.parties 1).log = 0 → world.notified 0 0 = 1 := by
    intro world logZero logOne
    rw [notified_eq_sum, Fin.sum_univ_two, Party.notifications, Party.notifications, logZero,
      logOne]
    decide
  obtain ⟨world, run, counts, after, completes⟩ : ∃ world, Reachable (fun _ => .generous 2)
      (fun world action => world.Barrierless action ∧ world.Expected farExpected action ∧
        world.Near action) world ∧ world.notified 0 0 = 1 ∧ ∃ after, world.Completes 0 after :=
    ⟨_, arrived, notified rfl rfl, _, false, ⟨_, rfl, rfl, rfl⟩, rfl⟩
  exact ⟨world, after, completes, counts, completes_countsExactly _ _ run completes⟩

end World

end IBVerbs

end Talpf
