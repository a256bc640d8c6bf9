import Talpf.IBVerbs.Expectations
import Talpf.IBVerbs.Ranges

/-!
# Syncs in the default mode

In the default mode every sync exchanges the counts and ends with a barrier.
What a process waits for is the number of messages of its superstep: after the
exchange nobody posts for that superstep any more.  The barrier keeps the
processes within one superstep of each other.  The vote that precedes the wait
for local completion only delays a sync.
-/

namespace Talpf

namespace IBVerbs

variable {n : ℕ}

namespace World

variable {world after : World n} {action : Action n}

/-- A barrier ends at a process only after all processes have entered it.  In the default mode a
process enters one for every superstep that it counts. -/
def Barriers (world : World n) : Action n → Prop
  | .processSyncRequest pid flag =>
      flag = true → (world.parties pid).verbs.syncRequest.secondPhase = true →
        ∀ q, (world.parties pid).taken ≤ (world.parties q).taken
  | _ => True

/-- All syncs have the default mode, no process posts from the reading of its counts to the end of
its sync, and no number of messages leaves the range of an `int`. -/
def Defaults (world : World n) (action : Action n) : Prop :=
  world.Quiet action ∧ world.Uniform (fun _ => .default) action ∧ world.Barriers action ∧
    world.Bounded action

/-- Every sync waits for the messages of its superstep. -/
structure Announced (world : World n) : Prop where
  ready : ∀ p task barrier remoteMsgs, (world.parties p).phase = .ready task barrier remoteMsgs →
    remoteMsgs = world.notified p ((world.parties p).epoch - 1)
  request : ∀ p, (world.parties p).verbs.syncRequest.isActive = true →
    (world.parties p).verbs.syncRequest.secondPhase = false →
      (world.parties p).verbs.syncRequest.remoteMsgs =
        world.notified p (world.parties p).superstep

/-- All epochs have been exchanged but the one that a process is about to exchange. -/
theorem InLine.epoch (inLine : world.InLine fun _ => .default) (p : Fin n) :
    (∃ task attr counts, (world.parties p).phase = .counted task attr counts ∧
      (world.parties p).epoch = world.exchanges.length + 1) ∨
    ((∀ task attr counts, (world.parties p).phase ≠ .counted task attr counts) ∧
      (world.parties p).epoch = world.exchanges.length) := by
  have all : ∀ k, Nat.count (Exchanges fun _ => .default) k = k := by
    intro k
    exact Nat.count_of_forall fun _ _ => Or.inl rfl
  have follows := inLine.follows p
  cases phase : (world.parties p).phase with
  | counted task attr counts =>
      simp only [Party.Follows, phase, all] at follows
      rcases follows with ⟨k, epoch, _, _, count, _⟩
      exact Or.inl ⟨task, attr, counts, rfl, by omega⟩
  | idle =>
      simp only [Party.Follows, phase, all] at follows
      refine Or.inr ⟨?_, follows.2.symm⟩
      intro _ _ _ isCounted
      cases isCounted
  | ready task barrier remoteMsgs =>
      simp only [Party.Follows, phase, all] at follows
      refine Or.inr ⟨?_, follows.2.symm⟩
      intro _ _ _ isCounted
      cases isCounted
  | drained task attr =>
      simp only [Party.Follows, phase, all] at follows
      refine Or.inr ⟨?_, follows.2.1.symm⟩
      intro _ _ _ isCounted
      cases isCounted

/-- How far a process is from the last exchange -/
theorem InLine.bounds (inLine : world.InLine fun _ => .default) (tracked : world.Tracked)
    (p : Fin n) : (world.parties p).superstep +
        (if (world.parties p).verbs.syncRequest.isActive then 1 else 0) ≤ world.exchanges.length ∧
      world.exchanges.length ≤ (world.parties p).superstep + 2 ∧
      (world.parties p).epoch ≤ world.exchanges.length + 1 := by
  have epoch := (tracked.parties p).epoch
  have active : (if (world.parties p).verbs.syncRequest.isActive then 1 else 0) ≤ 1 := by
    split <;> decide
  rcases inLine.epoch p with ⟨task, attr, counts, phase, exchanged⟩ | ⟨_, exchanged⟩
  · rw [phase, SyncPhase.begun] at epoch
    omega
  · have begun : (world.parties p).phase.begun ≤ 1 := by
      cases (world.parties p).phase <;> simp [SyncPhase.begun]
    omega

/-- A process posts for the superstep after the last exchange. -/
theorem InLine.superstep_of_post (inLine : world.InLine fun _ => .default)
    (tracked : world.Tracked) {q peer : Fin n} {task : Task} {kind : OperationKind}
    (quiet : world.Quiet (.post q task kind peer)) :
    (world.parties q).superstep = world.exchanges.length := by
  have exchanged : (world.parties q).epoch = world.exchanges.length := by
    rcases inLine.epoch q with ⟨_, _, _, phase, _⟩ | ⟨_, exchanged⟩
    · rcases quiet.1 with idle | ⟨_, _, drained⟩
      · cases idle.symm.trans phase
      · cases drained.symm.trans phase
    · exact exchanged
  rw [← tracked.epoch_of_quiet quiet, exchanged]

/-- The counts that are exchanged for a process are the messages of the superstep after the last
exchange. -/
theorem sum_counts (tracked : world.Tracked) (level : world.Level)
    (inLine : world.InLine fun _ => .default) {counts : Fin n → Fin n → Int}
    (counted : ∀ q, ∃ task attr, (world.parties q).phase = .counted task attr (counts q))
    (p : Fin n) : ∑ q, counts q p = world.notified p world.exchanges.length := by
  rw [notified_eq_sum, Nat.cast_sum]
  apply Finset.sum_congr rfl
  intro q _
  rcases counted q with ⟨task, attr, phase⟩
  have epoch : (world.parties q).epoch = world.exchanges.length + 1 := by
    rcases inLine.epoch q with ⟨_, _, _, _, exchanged⟩ | ⟨other, _⟩
    · exact exchanged
    · exact absurd phase (other _ _ _)
  rw [level.notifications q p, (tracked.parties q).counted _ _ _ phase p, epoch,
    Nat.add_sub_cancel]

/-- The exchange tells a process how many messages of its superstep are addressed to it. -/
theorem announced_exchange (tracked : world.Tracked) (level : world.Level)
    (inLine : world.InLine fun _ => .default) (taken : Step world .exchange after) {p : Fin n}
    {task : Task} {barrier : Bool} {remoteMsgs : Int}
    (ready : (after.parties p).phase = .ready task barrier remoteMsgs) :
    remoteMsgs = after.notified p ((after.parties p).epoch - 1) := by
  have same : after.notified p ((after.parties p).epoch - 1) =
      world.notified p ((after.parties p).epoch - 1) := by
    rcases taken.notified p ((after.parties p).epoch - 1) with same | ⟨_, _, _, isPost, _⟩
    · exact same
    · cases isPost
  rw [same]
  rcases taken with ⟨itsTask, attr, counts, rounds, told, counted, execution, rfl⟩
  have epoch : (world.parties p).epoch = world.exchanges.length + 1 := by
    rcases inLine.epoch p with ⟨_, _, _, _, exchanged⟩ | ⟨other, _⟩
    · exact exchanged
    · exact absurd (counted p) (other _ _ _)
  have isTold : remoteMsgs = told p := by
    cases ready
    rfl
  have itsEpoch : ((world.parties p).exchanged (itsTask p) (attr p) (told p)).epoch - 1 =
      world.exchanges.length := by
    show (world.parties p).epoch - 1 = _
    rw [epoch, Nat.add_sub_cancel]
  show remoteMsgs = world.notified p
    (((world.parties p).exchanged (itsTask p) (attr p) (told p)).epoch - 1)
  rw [itsEpoch, isTold, exchangeCounts_sum execution p]
  exact sum_counts tracked level inLine (fun q => ⟨itsTask q, attr q, counted q⟩) p

namespace Announced

theorem initial (devices : Fin n → Device n) : (World.initial devices).Announced where
  ready := by
    intro p task barrier remoteMsgs phase
    cases phase
  request := by
    intro p active
    cases active

theorem taken_le (phased : (world.parties p).Phased) : (world.parties p).taken ≤
    (world.parties p).superstep +
      if (world.parties p).verbs.syncRequest.isActive then 1 else 0 := by
  rw [Party.taken]
  cases second : (world.parties p).verbs.syncRequest.secondPhase with
  | false => simp
  | true => simp [(phased second).1]

theorem punctual (announced : world.Announced) (settled : world.Settled) (tracked : world.Tracked)
    (level : world.Level) (inLine : world.InLine fun _ => .default) (quiet : world.Quiet action)
    (taken : Step world action after) : world.Punctual action := by
  cases action with
  | post pid task kind peer =>
      have before := inLine.superstep_of_post tracked quiet
      have bounds := inLine.bounds tracked peer
      have counted := taken_le (settled.phased peer)
      rw [Punctual]
      omega
  | remoteProgress pid wcs =>
      intro wc member
      rcases taken with ⟨rest, polled, _⟩
      have onWay : wc ∈ world.travelling pid := by
        rw [polled]
        exact Multiset.mem_add.mpr (Or.inl member)
      rcases mem_addressed.mp (Multiset.mem_of_le (settled.travelling pid) onWay) with
        ⟨q, logged, _⟩
      have epoch := (tracked.parties q).epochs wc logged
      rw [level q wc logged] at epoch
      have sender := inLine.bounds tracked q
      have receiver := inLine.bounds tracked pid
      rw [Party.taken]
      omega
  | processSyncRequest pid flag =>
      intro entry counts
      exact (announced.request pid counts.1 ((settled.phased pid).first counts.2.1)).ge
  | _ => trivial

/-- What a process has been told stays true: nobody posts for that superstep any more. -/
theorem step (announced : world.Announced) (tracked : world.Tracked) (level : world.Level)
    (inLine : world.InLine fun _ => .default) (quiet : world.Quiet action)
    (taken : Step world action after) : after.Announced := by
  have settled : ∀ p superstep, superstep < world.exchanges.length →
      after.notified p superstep = world.notified p superstep := by
    intro p superstep earlier
    rcases taken.notified p superstep with same | ⟨q, task, kind, rfl, now, _⟩
    · exact same
    · have later := inLine.superstep_of_post tracked quiet
      omega
  constructor
  · intro p task barrier remoteMsgs ready
    rcases (taken.moves p).ready_cases ready with ⟨before, epoch⟩ |
      ⟨itsTask, attr, drained, _, isRead⟩ | ⟨itsTask, attr, counts, counted, rfl, told⟩
    · have begun := (tracked.parties p).epoch
      rw [before, SyncPhase.begun] at begun
      rcases inLine.epoch p with ⟨_, _, _, phase, _⟩ | ⟨_, exchanged⟩
      · cases before.symm.trans phase
      · rw [epoch, settled p _ (by omega)]
        exact announced.ready p task barrier remoteMsgs before
    · have follows := inLine.follows p
      simp only [Party.Follows, drained] at follows
      rw [isRead, follows.2.2] at ready
      cases ready
    · exact announced_exchange tracked level inLine taken ready
  · intro p active first
    rcases (taken.moves p).request_cases with ⟨request, superstep⟩ |
      ⟨task, barrier, remoteMsgs, rfl, ready, _, superstep, inactive, request⟩ | second | inactive
    · rw [request] at active first ⊢
      have bounds := (inLine.bounds tracked p).1
      rw [active, if_pos rfl] at bounds
      rw [superstep, settled p _ (by omega)]
      exact announced.request p active first
    · have begun := (tracked.parties p).epoch
      rw [ready, SyncPhase.begun, inactive] at begun
      have told := announced.ready p task barrier remoteMsgs ready
      have sameEpoch : (world.parties p).epoch - 1 = (world.parties p).superstep := by
        rw [begun]
        rfl
      rcases inLine.epoch p with ⟨_, _, _, phase, _⟩ | ⟨_, exchanged⟩
      · cases ready.symm.trans phase
      · rw [request, superstep, settled p _ (by omega), ← sameEpoch]
        exact told
    · exact absurd (first.symm.trans second) (by decide)
    · exact absurd (active.symm.trans inactive) (by decide)

end Announced

/-- The ring and what the syncs have been told in a run of default syncs -/
theorem Reachable.announced {devices : Fin n → Device n} (run : Reachable devices Defaults world) :
    world.Settled ∧ world.Announced := by
  have known : ∀ reached, Reachable devices Defaults reached →
      reached.Tracked ∧ reached.Level ∧ reached.InLine fun _ => .default := by
    intro reached run
    exact ⟨Reachable.tracked run, Reachable.level (run.mono fun _ _ all => all.1),
      Reachable.inLine (run.mono fun _ _ all => all.2.1)⟩
  apply run.invariant_of known ⟨settled_initial devices, .initial devices⟩
  rintro before action after ⟨tracked, level, inLine⟩ _ ⟨settled, announced⟩ ⟨quiet, _, _⟩ taken
  have punctual := announced.punctual settled tracked level inLine quiet taken
  exact ⟨settled.step tracked punctual taken, announced.step tracked level inLine quiet taken⟩

/-- In a run of default syncs no counter leaves its range. -/
theorem Reachable.ints_of_defaults {devices : Fin n → Device n}
    (run : Reachable devices Defaults world) : world.Ints := by
  have known : ∀ reached, Reachable devices Defaults reached → reached.Tracked ∧ reached.Level ∧
      (reached.InLine fun _ => .default) ∧ reached.Settled ∧
        ∀ p superstep, reached.notified p superstep < 2 ^ 31 := by
    intro reached run
    exact ⟨run.tracked, Reachable.level (run.mono fun _ _ all => all.1),
      Reachable.inLine (run.mono fun _ _ all => all.2.1), run.announced.1,
      run.notified_lt fun _ _ all => all.2.2.2⟩
  apply run.ints_of known
  rintro before action after ⟨tracked, level, inLine, _, few⟩ ⟨_, _, _, settled, fewAfter⟩
    ⟨quiet, _, _, bounded⟩ taken
  cases action with
  | post pid task kind peer => exact inRange_post tracked level quiet bounded
  | remoteProgress pid wcs => exact inRange_poll settled fewAfter taken
  | exchange =>
      intro counts counted p
      rw [sum_counts tracked level inLine counted p]
      exact_mod_cast few p _
  | _ => trivial

/-- A request with a barrier completes after its barrier. -/
theorem second_of_completes {party after : Party n} {flag : Bool}
    (withBarrier : party.verbs.syncRequest.withBarrier = true)
    (processed : party.processSyncRequest flag = some after) :
    after.superstep = party.superstep ∨
      (flag = true ∧ party.verbs.syncRequest.secondPhase = true ∧
        after.superstep = party.superstep + 1) := by
  rw [Party.processSyncRequest] at processed
  rcases look_cases party.verbs flag with waits | faults | ⟨second, finishes⟩ |
    ⟨_, _, _, _, ⟨_, starts⟩ | ⟨without, _⟩⟩
  · rw [waits, Option.some.injEq] at processed
    exact Or.inl (processed ▸ rfl)
  · rw [faults] at processed
    cases processed
  · cases flag with
    | true =>
        rw [finishes, Option.some.injEq] at processed
        exact Or.inr ⟨rfl, second.2, processed ▸ rfl⟩
    | false =>
        rw [IBVerbs.processSyncRequest, if_pos second] at finishes
        cases finishes
  · rw [starts, Option.some.injEq] at processed
    exact Or.inl (processed ▸ rfl)
  · exact absurd (withBarrier.symm.trans without) (by decide)

/-- A process completes a superstep only after all have counted its messages. -/
theorem Reachable.together {devices : Fin n → Device n} (run : Reachable devices Defaults world)
    (p q : Fin n) : (world.parties p).superstep ≤ (world.parties q).taken := by
  have known : ∀ reached, Reachable devices Defaults reached →
      reached.Settled ∧ ∀ p, (reached.parties p).WithBarrier true := by
    intro reached run
    refine ⟨(Reachable.announced run).1, Reachable.withBarrier run ?_⟩
    intro world pid task attr allowed
    have isDefault : attr = .default := allowed.2.1
    rw [isDefault]
    exact SyncAttr.barrier_default
  revert p q
  apply run.invariant_of known
  · intro p q
    exact Nat.zero_le _
  · rintro before action after ⟨settled, withBarrier⟩ _ holds ⟨_, _, barriers, _⟩ taken p q
    have further : (before.parties q).taken ≤ (after.parties q).taken := by
      cases ((taken.moves q).turns (settled.phased q)).2 with
      | keeps _ same => exact same.ge
      | receives _ _ same => exact same.ge
      | counts _ _ next => exact next ▸ Nat.le_succ _
    have before' := holds p q
    rcases (taken.moves p).superstep_cases with same | ⟨flag, rfl, active, processed⟩
    · omega
    · rcases second_of_completes ((withBarrier p).request active) processed with same |
        ⟨ended, second, next⟩
      · omega
      · have entered := barriers ended second q
        have itsTaken : (before.parties p).taken = (before.parties p).superstep + 1 := by
          rw [Party.taken, second]
          rfl
        omega

/-- When a process has completed a superstep, the messages of that superstep are delivered.  Every
sync counts exactly the messages of its superstep and leaves nothing in their entry, the processes
stay within one superstep of each other, and no counter leaves its range. -/
theorem defaults_deliver (devices : Fin n → Device n) (run : Reachable devices Defaults world) :
    (∀ p, ∀ op ∈ world.addressed p, op.superstep < (world.parties p).superstep →
      op ∉ world.travelling p) ∧
    (∀ p entry, (world.parties p).Counts entry → world.CountsExactly p entry ∧
      ((world.parties p).verbs.takeRecvs entry).recvCounts entry = 0) ∧
    (∀ p, (world.parties p).verbs.syncCounter = BitVec.ofNat 32 (world.parties p).superstep) ∧
    (∀ p q, (world.parties p).superstep ≤ (world.parties q).superstep + 1) ∧ world.Ints := by
  have tracked := Reachable.tracked run
  rcases Reachable.announced run with ⟨settled, announced⟩
  refine ⟨?_, ?_, fun p => (tracked.parties p).syncCounter, ?_, run.ints_of_defaults⟩
  · intro p op _ earlier onWay
    have late := settled.late p op onWay
    rw [Party.taken] at late
    omega
  · intro p entry counts
    have exactly := settled.countsExactly tracked counts
      (announced.request p counts.1 ((settled.phased p).first counts.2.1)).ge
    exact ⟨exactly, exactly.recvCounts_takeRecvs⟩
  · intro p q
    have together := Reachable.together run p q
    rw [Party.taken] at together
    split at together <;> omega

/-- What happens within a sync is subject to no rule. -/
theorem defaults_of_inner (inner : Inner action) : world.Defaults action := by
  cases action with
  | post | drain | processSyncRequest => exact inner.elim
  | _ => exact ⟨trivial, trivial, trivial, trivial⟩

/-- A sync whose messages have all arrived counts them next. -/
theorem Reachable.counts_of_arrived {devices : Fin n → Device n}
    (run : Reachable devices Defaults world) {p : Fin n} (nothing : world.travelling p = 0)
    (active : (world.parties p).verbs.syncRequest.isActive = true)
    (first : (world.parties p).verbs.syncRequest.secondPhase = false) {entry : Fin 1024}
    (index : (world.parties p).verbs.syncIndex = some entry) :
    (world.parties p).Counts entry := by
  rcases run.announced with ⟨settled, announced⟩
  have taken : (world.parties p).taken = (world.parties p).superstep := by
    rw [Party.taken, first]
    rfl
  refine ⟨active, fun both => Bool.false_ne_true (first.symm.trans both.2), index, ?_⟩
  rw [announced.request p active first]
  exact settled.notified_le nothing taken
    (syncIndex_of_superstep (run.tracked.parties p).syncCounter index)

/-- Process 0 sends process 1 a message, which the sync of process 1 counts. -/
theorem defaults_deliver_pair : ∃ world : World 2, world.notified 1 0 = 1 ∧
    ∃ entry, (world.parties 1).Counts entry ∧ world.CountsExactly 1 entry ∧ world.Ints := by
  let op : Posted 2 := (Party.initial (.generous 2)).operation 5 1
  have started : Reachable (fun _ => .generous 2) Defaults
      (initial fun _ : Fin 2 => .generous 2) := Transition.Reachable.refl
  have posted := started.next (.post 0 5 .put 1)
    ⟨⟨Or.inl rfl, rfl⟩, trivial, trivial, by decide, by decide⟩ rfl
  have completed := posted.next (.complete 0 op) (defaults_of_inner trivial) ⟨0, rfl, rfl⟩
  have polled := completed.next (.localProgress 0 [op]) (defaults_of_inner trivial) ⟨0, rfl, rfl⟩
  obtain ⟨world, run, idle, complete, inactive, uncached, first, start, notified⟩ :
      ∃ world : World 2, Reachable (fun _ => .generous 2) Defaults world ∧
        (∀ p, (world.parties p).phase = .idle) ∧
        (∀ p, ¬(world.parties p).verbs.numMsgs > 0) ∧
        (∀ p, (world.parties p).verbs.syncRequest.isActive = false) ∧
        (∀ p, (world.parties p).verbs.syncCached = false) ∧
        (world.parties 1).verbs.syncRequest.secondPhase = false ∧
        (world.parties 1).verbs.syncCounter = BitVec.ofNat 32 0 ∧ world.notified 1 0 = 1 :=
    ⟨_, polled, Fin.forall_fin_two.mpr ⟨rfl, rfl⟩, Fin.forall_fin_two.mpr ⟨by decide, by decide⟩,
      Fin.forall_fin_two.mpr ⟨rfl, rfl⟩, Fin.forall_fin_two.mpr ⟨rfl, rfl⟩, rfl, rfl, rfl⟩
  rcases exists_arrived run (fun _ => 6) .default (fun _ _ _ => ⟨trivial, rfl, trivial, trivial⟩)
    (fun _ _ => defaults_of_inner) idle complete inactive
    fun p q => (uncached p).trans (uncached q).symm with ⟨arrived, last, nothing, asked⟩
  have logs : ∀ q, (arrived.parties q).log = (world.parties q).log := fun q => (asked q).keeps.log
  have index := syncIndex_start ((asked 1).keeps.syncCounter.trans start)
  have counts := Reachable.counts_of_arrived last (nothing 1) (asked 1).isActive
    ((asked 1).keeps.secondPhase.trans first) index
  rcases defaults_deliver _ last with ⟨_, exactly, _, _, ints⟩
  exact ⟨arrived, (notified_congr logs 1 0).trans notified, 0, counts, (exactly 1 0 counts).1, ints⟩

/-- A message that is posted after the counts are read, while no request is active yet, is left in
the entry of a superstep whose counts do not have it. -/
theorem not_defaults_deliver : ∃ world : World 1, Reachable (fun _ => .generous 1)
      (fun world action => world.Unrequested action ∧ world.Uniform (fun _ => .default) action ∧
        world.Barriers action ∧ world.Bounded action) world ∧
    ∃ entry, (world.parties 0).Counts entry ∧
      ((world.parties 0).verbs.takeRecvs entry).recvCounts entry ≠ 0 := by
  let op : Posted 1 := ⟨5, 0, 0, 0, 1⟩
  have started : Reachable (fun _ => .generous 1)
      (fun world action => world.Unrequested action ∧ world.Uniform (fun _ => .default) action ∧
        world.Barriers action ∧ world.Bounded action)
      (initial fun _ : Fin 1 => .generous 1) := Transition.Reachable.refl
  have drained := started.next (.drain 0 6 .default) ⟨trivial, rfl, trivial, trivial⟩
    ⟨rfl, by decide, rfl⟩
  have counted := drained.next (.readCounts 0) ⟨trivial, trivial, trivial, trivial⟩
    ⟨6, .default, rfl, rfl⟩
  have posted := counted.next (.post 0 5 .put 0) ⟨rfl, trivial, trivial, by decide, by decide⟩ rfl
  rcases posted.exchange ⟨trivial, trivial, trivial, trivial⟩ (fun _ => 6) (fun _ => .default)
    (fun _ _ => 0) (Fin.forall_fin_one.mpr rfl) with ⟨remoteMsgs, exchanged⟩
  have told : remoteMsgs 0 = 0 :=
    (Reachable.tracked exchanged).remoteMsgs _ List.mem_cons_self 0
  have requested := exchanged.next (.request 0) ⟨trivial, trivial, trivial, trivial⟩
    ⟨6, true, remoteMsgs 0, _, rfl, rfl, rfl⟩
  have arrived := requested.next (.remoteProgress 0 [op]) ⟨trivial, trivial, trivial, trivial⟩
    ⟨0, rfl, rfl⟩
  have index : (IBVerbs.initial (.generous 1)).syncIndex = some 0 := by decide
  have left : (1 : Int) - remoteMsgs 0 ≠ 0 := by
    rw [told]
    decide
  have enough : remoteMsgs 0 ≤ 1 := by
    rw [told]
    decide
  exact ⟨_, arrived, 0, ⟨rfl, fun both => Bool.false_ne_true both.2, index, enough⟩, left⟩

end World

end IBVerbs

end Talpf
