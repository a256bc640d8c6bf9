import Talpf.IBVerbs.Schedule
import Talpf.IBVerbs.Expectations
import Talpf.IBVerbs.Rounds

/-!
# Mixed synchronisation modes

Processes that call sync with the same modes and barriers issue the same
collectives, whatever their tasks post and whenever notifications arrive.  A
process that is ahead of another has issued more collectives of the common
schedule, and therefore each collective meets those of the same sync, so that
every process remembers the same syncs of the exchanges of the counts.
-/

namespace Talpf

namespace IBVerbs

variable {n : ℕ} {attrs : ℕ → SyncAttr}

theorem length_opsBefore {sent other : Fin n → ℕ → ℕ} (k : ℕ) :
    (opsBefore attrs sent k).length = (opsBefore attrs other k).length := by
  have kinds : ((opsBefore attrs sent k).map Collective.kind).length =
      ((opsBefore attrs other k).map Collective.kind).length :=
    congrArg List.length (kinds_opsBefore k)
  rwa [List.length_map, List.length_map] at kinds

theorem Party.Background.ints {party after : Party n} (moved : party.Background after)
    (tracked : party.Tracked) (ints : party.Ints) (numMsgs : after.verbs.numMsgs < 2 ^ 31)
    (numMsgsSync : ∀ peer, after.verbs.numMsgsSync peer < 2 ^ 31)
    (recvCounts : ∀ entry, after.verbs.recvCounts entry < 2 ^ 31) : after.Ints := by
  cases moved with
  | post task kind peer =>
      rw [Party.post, OperationKind.post_eq] at numMsgs numMsgsSync
      have counted : Function.update party.verbs.numMsgsSync peer
          (party.verbs.numMsgsSync peer + 1) peer < 2 ^ 31 := numMsgsSync peer
      rw [Function.update_self] at counted
      exact ints.post task kind peer numMsgs counted
  | complete first => exact ⟨ints.verbs, ints.counted, ints.ready⟩
  | localProgress polled => exact ints.localProgress tracked polled
  | remoteProgress wcs => exact ints.remoteProgress _ recvCounts

/-- A process stays in range if its posts, its polls and what it is told do. -/
theorem Member.Turn.ints {member next : Member n} {p : Fin n} {total : ℕ → Int → Prop}
    {issued : Fin n → List (Collective n)} (turn : member.Turn attrs issued p next)
    (inTurn : member.InTurn attrs total p) (tracked : member.party.Tracked)
    (ints : member.party.Ints) (numMsgs : next.party.verbs.numMsgs < 2 ^ 31)
    (numMsgsSync : ∀ peer, next.party.verbs.numMsgsSync peer < 2 ^ 31)
    (recvCounts : ∀ entry, next.party.verbs.recvCounts entry < 2 ^ 31)
    (told : ∀ k sum, total k sum → IsCount sum) : next.party.Ints := by
  cases turn with
  | background moved => exact moved.ints tracked ints numMsgs numMsgsSync recvCounts
  | vote | voted | reduce | reduced => exact ints
  | drain => exact ⟨ints.verbs, by simp, by simp⟩
  | readCounts => exact ints.readCounts _ _
  | exchanged counted done =>
      rcases inTurn.told_of_done counted done with ⟨k, sum⟩
      exact ints.exchanged _ _ (told k _ sum)
  | request ready accepted => exact ints.request ready accepted
  | look _ _ processed => exact ints.processSyncRequest processed

namespace Team

variable {team after : Team n} {devices : Fin n → Device n}

/-- What all processes have sent to process `p` before their `k`-th sync, once all of them have read
their counts in it -/
def Addressed (team : Team n) (p : Fin n) (k : ℕ) (remoteMsgs : Int) : Prop :=
  (∀ q, k < (team q).party.epoch) ∧ remoteMsgs = ∑ q, ((team q).party.sent p k : Int)

theorem Addressed.extends {p : Fin n} {k : ℕ} {remoteMsgs : Int}
    (addressed : team.Addressed p k remoteMsgs)
    (extends_ : ∀ q, (team q).party.Extends (after q).party) :
    after.Addressed p k remoteMsgs := by
  refine ⟨fun q => Nat.lt_of_lt_of_le (addressed.1 q) (extends_ q).epoch, addressed.2.trans ?_⟩
  apply Finset.sum_congr rfl
  intro q _
  rw [(extends_ q).sent p k (addressed.1 q)]

/-- Every process follows the schedule. -/
structure Scheduled (attrs : ℕ → SyncAttr) (team : Team n) : Prop where
  tracked : ∀ p, (team p).party.Tracked
  phased : ∀ p, (team p).party.Phased
  inTurn : ∀ p, (team p).InTurn attrs (team.Addressed p) p

namespace Scheduled

/-- A process that has issued more than the first syncs need has read their counts. -/
theorem epoch_of_issued (scheduled : team.Scheduled attrs) {q : Fin n} {k : ℕ}
    (more : (opsBefore attrs (team q).party.sent k ++ voteOps attrs n k).length <
      (team q).issued.length) : k < (team q).party.epoch := by
  by_contra early
  have within := (scheduled.inTurn q).issued_leads.trans
    (voteOps_prefix_of_le (Nat.le_of_not_lt early))
  exact Nat.not_lt_of_le within.length_le more

/-- A collective of the schedule stands where the schedule says. -/
theorem issued_at (scheduled : team.Scheduled attrs) {q : Fin n} {before : List (Collective n)}
    {op : Collective n} (reached : before.length < (team q).issued.length)
    (among : before ++ [op] <+: opsBefore attrs (team q).party.sent (team q).party.epoch ++
      voteOps attrs n (team q).party.epoch) :
    (team q).issued[before.length]? = some op := by
  have short : (before ++ [op]).length ≤ (team q).issued.length := by
    rw [List.length_append, List.length_singleton]
    exact reached
  rcases List.prefix_of_prefix_length_le among (scheduled.inTurn q).issued_leads short with
    ⟨rest, same⟩
  rw [← same, List.append_assoc, List.getElem?_append_right (Nat.le_refl _), Nat.sub_self]
  rfl

/-- The reduction for a process meets those of the same sync. -/
theorem addressed_of_returns (scheduled : team.Scheduled attrs) {p : Fin n} {k : ℕ} {c sum : Int}
    (reduces : Member.Reduces attrs (team p) k p)
    (returns : Returns (fun q => (team q).issued) p (.allreduceSum c) sum) :
    team.Addressed p k sum := by
  rcases reduces with ⟨exchanges, done, todo, peers, issued⟩
  rcases returns with ⟨earlier, ends, reached, result⟩
  have places := List.append_inj_left' (ends.symm.trans issued) rfl
  have length : ∀ q, earlier.length = (opsBefore attrs (team q).party.sent k ++
      (voteOps attrs n k ++ countOps (team q).party.sent k done)).length := by
    intro q
    rw [places, List.length_append, List.length_append, List.length_append, List.length_append,
      length_opsBefore k, countOps, countOps, List.length_map, List.length_map]
  have begun : ∀ q, k < (team q).party.epoch := by
    intro q
    apply scheduled.epoch_of_issued
    have here : earlier.length < (team q).issued.length := reached q
    rw [length q, ← List.append_assoc, List.length_append] at here
    omega
  refine ⟨begun, ?_⟩
  have ops : ∀ q, (team q).issued[earlier.length]? =
      some (.allreduceSum ((team q).party.sent p k)) := by
    intro q
    rw [length q]
    apply scheduled.issued_at (length q ▸ reached q)
    have peers : List.finRange n = (done ++ [p]) ++ todo := by
      rw [peers, List.append_assoc, List.singleton_append]
    have counts : voteOps attrs n k ++ countOps (team q).party.sent k (done ++ [p]) <+: _ :=
      countOps_leads exchanges peers
    have among := ((List.prefix_append_right_inj _).mpr counts).trans (requestOps_leads k)
    rw [countOps, List.map_append, ← List.append_assoc, ← List.append_assoc] at among
    rw [← List.append_assoc]
    exact (among.trans (opsBefore_leads (begun q))).trans (List.prefix_append _ _)
  exact result _ ops fun _ _ => rfl

theorem step (scheduled : team.Scheduled attrs) {p : Fin n} (taken : Step attrs team p after) :
    after.Scheduled attrs := by
  rcases taken with ⟨member, turn, rfl⟩
  rcases turn.moves (scheduled.inTurn p) with ⟨action, moves⟩
  have extends_ : ∀ q, (team q).party.Extends (Function.update team p member q).party := by
    intro q
    by_cases own : q = p
    · subst own
      rw [Function.update_self]
      exact moves.settled
    · rw [Function.update_of_ne own]
      exact .of_log (Nat.le_refl _) rfl
  have next := (scheduled.inTurn p).turn (scheduled.tracked p) (scheduled.phased p)
    (fun reduces returns => scheduled.addressed_of_returns reduces returns) turn
  refine ⟨?_, ?_, ?_⟩
  · intro q
    by_cases own : q = p
    · subst own
      rw [Function.update_self]
      exact moves.tracked (scheduled.tracked q)
    · rw [Function.update_of_ne own]
      exact scheduled.tracked q
  · intro q
    by_cases own : q = p
    · subst own
      rw [Function.update_self]
      exact (moves.turns (scheduled.phased q)).1
    · rw [Function.update_of_ne own]
      exact scheduled.phased q
  · intro q
    by_cases own : q = p
    · subst own
      rw [Function.update_self]
      exact next.mono fun k v addressed => addressed.extends extends_
    · rw [Function.update_of_ne own]
      exact (scheduled.inTurn q).mono fun k v addressed => addressed.extends extends_

end Scheduled

theorem scheduled_initial (devices : Fin n → Device n) :
    (initial devices).Scheduled attrs where
  tracked p := Party.tracked_initial (devices p)
  phased _ second := absurd second Bool.false_ne_true
  inTurn _ :=
    { waits := fun active => absurd active Bool.false_ne_true
      remembers := fun _ => ⟨rfl, fun cached => absurd cached Bool.false_ne_true⟩
      position := ⟨0, .between, ⟨rfl, rfl⟩, rfl⟩ }

theorem Reachable.scheduled (run : Reachable attrs devices team) : team.Scheduled attrs := by
  apply run.invariant (scheduled_initial devices)
  intro before _ after scheduled _ taken
  exact scheduled.step taken

theorem Scheduled.ints_step (scheduled : team.Scheduled attrs)
    (ints : ∀ p, (team p).party.Ints) (bounded : team.Bounded) (nextBounded : after.Bounded)
    {p : Fin n} (taken : Step attrs team p after) (q : Fin n) : (after q).party.Ints := by
  have next := (scheduled.step taken).tracked q
  rcases nextBounded q with ⟨numMsgs, recvCounts, _⟩
  have numMsgsSync : ∀ peer, (after q).party.verbs.numMsgsSync peer < 2 ^ 31 := by
    intro peer
    rw [next.conserved.numMsgsSync]
    exact_mod_cast nextBounded.sent peer q _
  rcases taken with ⟨member, turn, rfl⟩
  by_cases own : q = p
  · subst own
    rw [Function.update_self] at numMsgs recvCounts numMsgsSync ⊢
    apply turn.ints (scheduled.inTurn q) (scheduled.tracked q) (ints q) numMsgs numMsgsSync
      recvCounts
    rintro k sum ⟨_, rfl⟩
    rw [← Nat.cast_sum]
    exact .natCast ((bounded q).2.2 k)
  · rw [Function.update_of_ne own]
    exact ints q

/-- No counter leaves its range. -/
theorem BoundedRun.ints (run : BoundedRun attrs devices team) (p : Fin n) :
    (team p).party.Ints := by
  have known : ∀ reached, BoundedRun attrs devices reached →
      reached.Scheduled attrs ∧ reached.Bounded :=
    fun reached run => ⟨Reachable.scheduled run.reachable, run.bounded⟩
  revert p
  apply run.invariant_of known
  · exact fun p => Party.ints_initial (devices p)
  · rintro before pid after ⟨scheduled, bounded⟩ ⟨_, nextBounded⟩ ints _ taken
    exact scheduled.ints_step ints bounded nextBounded taken.1

/-- The kinds of the collectives of the first syncs -/
def scheduledKinds (attrs : ℕ → SyncAttr) (n k : ℕ) : List CollectiveKind :=
  (opsBefore attrs (fun (_ : Fin n) _ => 0) k).map Collective.kind

namespace Scheduled

theorem kinds_leads (scheduled : team.Scheduled attrs) {p : Fin n} {k : ℕ}
    (later : (team p).party.epoch < k) :
    (team p).issued.map Collective.kind <+: scheduledKinds attrs n k := by
  have within := ((scheduled.inTurn p).issued_leads.trans (voteOps_leads _)).trans
    (opsBefore_leads later)
  rw [scheduledKinds, kinds_opsBefore k]
  exact within.map _

/-- A process whose requests are complete has issued the collectives of its syncs. -/
theorem issued_of_free (scheduled : team.Scheduled attrs) {p : Fin n} (free : (team p).Free) :
    (team p).issued = opsBefore attrs (team p).party.sent (team p).party.superstep := by
  rcases (scheduled.inTurn p).position with ⟨k, place, location, issued⟩
  simp only [Member.Location, free.idle, free.call, free.inactive, Bool.false_eq_true, if_false]
    at location
  rcases location with ⟨rfl, rfl⟩
  have epoch := (scheduled.tracked p).epoch
  rw [free.idle, free.inactive] at epoch
  have same : (team p).party.epoch = (team p).party.superstep := epoch
  rw [issued, same]
  exact List.append_nil _

/-- A request whose messages are not counted yet is that of the superstep, and it waits for what the
last exchange has found. -/
theorem expects_of_active (scheduled : team.Scheduled attrs) {p : Fin n}
    (active : (team p).party.verbs.syncRequest.isActive = true)
    (first : (team p).party.verbs.syncRequest.secondPhase = false) :
    Member.Expects attrs (team.Addressed p) (team p).party.superstep
      (team p).party.verbs.syncRequest.remoteMsgs := by
  rcases (scheduled.inTurn p).waits active with ⟨idle, none⟩
  rcases (scheduled.inTurn p).position with ⟨k, place, location, _⟩
  simp only [Member.Location, idle, none, active, first, if_true, Bool.false_eq_true, if_false]
    at location
  have epoch := (scheduled.tracked p).epoch
  rw [idle, active, location.1] at epoch
  have same : k = (team p).party.superstep := Nat.succ.inj epoch
  exact same ▸ location.2.2.2

end Scheduled

/-- All processes issue the collectives of the schedule, and they agree on whether the number of
messages is cached.  A CACHED sync that does not exchange the counts waits for the messages that
were sent to the process before the last CACHED sync that did, and no DEFAULT sync came after it.
In bounded runs no counter leaves its range. -/
theorem collectives_match (devices : Fin n → Device n) (run : BoundedRun attrs devices team) :
    (∀ p q, (team p).issued.map Collective.kind <+: (team q).issued.map Collective.kind ∨
      (team q).issued.map Collective.kind <+: (team p).issued.map Collective.kind) ∧
    (∀ p, (team p).Free → (team p).issued.map Collective.kind =
      scheduledKinds attrs n (team p).party.superstep) ∧
    (∀ p q, (team p).party.epoch = (team q).party.epoch →
      (∀ task attr counts, (team p).party.phase ≠ .counted task attr counts) →
      (∀ task attr counts, (team q).party.phase ≠ .counted task attr counts) →
        (team p).party.verbs.syncCached = (team q).party.verbs.syncCached) ∧
    (∀ p, (team p).party.verbs.syncRequest.isActive = true →
      (team p).party.verbs.syncRequest.secondPhase = false →
      (attrs (team p).party.superstep).mode = .cached →
      ¬Exchanges attrs (team p).party.superstep →
        ∃ last < (team p).party.superstep, (attrs last).mode = .cached ∧ Exchanges attrs last ∧
          (∀ k, last < k → k < (team p).party.superstep → (attrs k).mode ≠ .default) ∧
          (team p).party.verbs.syncRequest.remoteMsgs =
            ∑ q, ((team q).party.sent p last : Int)) ∧
    ∀ p, (team p).party.Ints := by
  have scheduled := Reachable.scheduled run.reachable
  refine ⟨?_, ?_, ?_, ?_, run.ints⟩
  · intro p q
    have forP := scheduled.kinds_leads (p := p)
      (Nat.lt_succ_of_le (Nat.le_max_left (team p).party.epoch (team q).party.epoch))
    have forQ := scheduled.kinds_leads (p := q)
      (Nat.lt_succ_of_le (Nat.le_max_right (team p).party.epoch (team q).party.epoch))
    exact List.prefix_or_prefix_of_prefix forP forQ
  · intro p free
    rw [scheduled.issued_of_free free, scheduledKinds, kinds_opsBefore]
  · intro p q same settledP settledQ
    rw [((scheduled.inTurn p).remembers settledP).syncCached,
      ((scheduled.inTurn q).remembers settledQ).syncCached, same]
  · intro p active first cached silent
    have expects := scheduled.expects_of_active active first cached
    rw [lastExchange, if_neg silent] at expects
    have before : cachedBefore attrs (team p).party.superstep = true := by
      by_contra fresh
      exact silent (Or.inr ⟨cached, Bool.not_eq_true _ ▸ fresh⟩)
    rcases lastExchange_spec before with ⟨earlier, isCached, exchanges, others⟩
    refine ⟨_, earlier, isCached, exchanges, ?_, expects.2⟩
    intro k after within isDefault
    exact others k after within (Or.inl isDefault)

/-- A process that has completed its first sync, with one message, requests the same in its next
CACHED sync. -/
theorem BoundedRun.exists_again {devices : Fin n → Device n} {p : Fin n} {member : Member n}
    (run : BoundedRun (fun _ => .cached) devices (Function.update team p member))
    (free : member.Free) (complete : ¬member.party.verbs.numMsgs > 0)
    (isCached : member.party.verbs.syncCached = true) (task : Task) :
    ∃ next : Member n, BoundedRun (fun _ => .cached) devices (Function.update team p next) ∧
      next.party.verbs.syncRequest.isActive = true ∧
      next.party.verbs.syncRequest.secondPhase = member.party.verbs.syncRequest.secondPhase ∧
      next.party.verbs.syncRequest.remoteMsgs = member.party.verbs.syncCachedValue ∧
      next.party.superstep = member.party.superstep := by
  have cached : SyncAttr.cached.mode ≠ .default := by decide
  have mode : SyncAttr.cached.mode = .cached := by decide
  have barrier : SyncAttr.cached.barrier = false := by decide
  have drained := run.again (@Member.Turn.drain _ _ _ _ _ task _
    (Or.inr ⟨free, ⟨rfl, rfl⟩, cached⟩) complete) ⟨Int.le_refl _, fun _ => Int.le_refl _, rfl⟩
  let begun : Party n := { member.party with phase := .drained task .cached }
  have counted := begun.counted_readCounts task .cached
  have phase : (begun.readCounts task .cached).phase =
      .ready task false member.party.verbs.syncCachedValue := by
    have already : member.party.verbs.clearMsgsSync.syncCached = true := isCached
    rw [Party.readCounts, mode]
    dsimp only
    rw [if_pos already, barrier]
    rfl
  have read := drained.again (.readCounts rfl) ⟨Int.le_of_eq counted.keeps.numMsgs,
    fun entry => Int.le_of_eq (congrFun (begun.frame_readCounts task .cached).1 entry),
    counted.keeps.log⟩
  have requested := read.again (.request phase (Party.request_free task false _
    (counted.isActive.trans free.inactive))) ⟨Int.le_refl _, fun _ => Int.le_refl _, rfl⟩
  exact ⟨_, requested, rfl, counted.keeps.secondPhase, rfl, counted.keeps.superstep⟩

/-- Process 0 posts an operation to process 1, and both begin a CACHED sync. -/
theorem exists_drained_pair : ∃ team : Team 2,
    BoundedRun (fun _ => .cached) (fun _ => .generous 2) team ∧
      (∀ p, (team p).party.phase = .drained 6 .cached) ∧
      (∀ p, (team p).party.verbs.syncCached = false) ∧
      (∀ p, (team p).party.verbs.syncRequest.isActive = false) ∧
      (∀ p, (team p).issued.length = 0) ∧ ∑ q, (team q).party.verbs.numMsgsSync 1 = 1 ∧
      (∀ entry, (team 1).party.verbs.recvCounts entry = 0) ∧ (team 1).party.verbs.numMsgs = 0 ∧
      (team 1).party.verbs.syncRequest.secondPhase = false ∧
      (team 1).party.verbs.syncCounter = BitVec.ofNat 32 0 ∧ (team 1).party.superstep = 0 := by
  let op : Posted 2 := (Party.initial (.generous 2)).operation 5 1
  have cached : SyncAttr.cached.mode ≠ .default := by decide
  have small : (0 : Int) < 2 ^ 31 := by decide
  have started : BoundedRun (fun _ => .cached) (fun _ => .generous 2)
      (initial fun _ : Fin 2 => .generous 2) := Transition.Reachable.refl
  have posted := started.next (p := 0) (.background (.post 5 .put 1))
    (bounded_of_logs (Fin.forall_fin_two.mpr ⟨by decide, by decide⟩)
      (Fin.forall_fin_two.mpr ⟨fun _ => small, fun _ => small⟩) (by decide))
  have completed := posted.again (.background (.complete (Multiset.cons_zero op).symm))
    ⟨Int.le_refl _, fun _ => Int.le_refl _, rfl⟩
  have polled := completed.again (.background (@Party.Background.localProgress _ _ [op] 0 rfl))
    ⟨by decide, fun _ => Int.le_refl _, rfl⟩
  have drained := polled.again (@Member.Turn.drain _ _ _ _ _ 6 .cached
    (Or.inr ⟨⟨rfl, rfl, rfl⟩, ⟨rfl, rfl⟩, cached⟩) (by decide))
    ⟨Int.le_refl _, fun _ => Int.le_refl _, rfl⟩
  have both := drained.ease (p := 1) (@Member.Turn.drain _ _ _ _ _ 6 .cached
    (Or.inr ⟨⟨rfl, rfl, rfl⟩, ⟨rfl, rfl⟩, cached⟩) (by decide))
    ⟨Int.le_refl _, fun _ => Int.le_refl _, rfl⟩
  exact ⟨_, both, Fin.forall_fin_two.mpr ⟨rfl, rfl⟩, Fin.forall_fin_two.mpr ⟨rfl, rfl⟩,
    Fin.forall_fin_two.mpr ⟨rfl, rfl⟩, Fin.forall_fin_two.mpr ⟨rfl, rfl⟩, by decide, fun _ => rfl,
    rfl, rfl, rfl, rfl⟩

/-- Process 1 completes the sync. -/
theorem exists_released_pair : ∃ (team : Team 2) (member : Member 2),
    BoundedRun (fun _ => .cached) (fun _ => .generous 2) (Function.update team 1 member) ∧
      member.Free ∧ ¬member.party.verbs.numMsgs > 0 ∧ member.party.verbs.syncCached = true ∧
      member.party.verbs.syncRequest.secondPhase = false ∧
      member.party.verbs.syncCachedValue = 1 ∧ member.party.superstep = 1 := by
  rcases exists_drained_pair with ⟨team, run, drained, uncached, inactive, issued, sent, recvCounts,
    numMsgs, first, start, zero⟩
  rcases run.exists_asked drained (fun p => Or.inr ⟨by decide, uncached p⟩) inactive issued with
    ⟨asking, asked, all⟩
  rcases all 1 with ⟨asks, free, ring, remoteMsgs, value⟩
  let op : Posted 2 := (Party.initial (.generous 2)).operation 5 1
  have arrived : BoundedRun _ _ _ := asked.arrives (p := 1) [op] (by
    intro entry
    rw [ring, recvCounts entry]
    decide)
  have one : (asking 1).party.verbs.syncRequest.remoteMsgs = 1 := remoteMsgs.trans sent
  have enough : (asking 1).party.verbs.syncRequest.remoteMsgs ≤
      ((asking 1).party.verbs.doRemoteProgress ([op].map Posted.immData)).recvCounts 0 := by
    rw [recvCounts_batch, ring, recvCounts, one]
    decide
  rw [Party.doRemoteProgress_eq] at arrived
  rcases arrived.exists_released asks.isActive (asks.withBarrier.trans (by decide))
    (asks.keeps.syncCounter.trans start) (one ▸ Int.zero_le_ofNat 1) enough with
    ⟨member, looked, call, phase, verbs, superstep⟩
  refine ⟨asking, member, looked, ⟨phase.trans asks.idle, call.trans free, ?_⟩, ?_, ?_, ?_, ?_,
    superstep.trans (congrArg Nat.succ (asks.keeps.superstep.trans zero))⟩
  all_goals rw [verbs]
  · rfl
  · show ¬(asking 1).party.verbs.numMsgs > 0
    rw [asks.keeps.numMsgs, numMsgs]
    exact Int.lt_irrefl 0
  · exact asks.syncCached.trans rfl
  · exact asks.keeps.secondPhase.trans first
  · exact value.trans sent

/-- Its next sync exchanges nothing, and requests the same message. -/
theorem collectives_match_pair : ∃ team : Team 2,
    (team 1).party.verbs.syncRequest.remoteMsgs = 1 ∧ (team 1).party.Ints ∧
      ∃ last < (team 1).party.superstep, Exchanges (fun _ => SyncAttr.cached) last ∧
        (1 : Int) = ∑ q, ((team q).party.sent 1 last : Int) := by
  rcases exists_released_pair with
    ⟨team, member, looked, free, complete, isCached, first, value, superstep⟩
  rcases looked.exists_again free complete isCached 6 with
    ⟨next, again, active, same, repeats, still⟩
  have own : Function.update team 1 next 1 = next := Function.update_self _ _ _
  have mode : SyncAttr.cached.mode = .cached := by decide
  have silent : ¬Exchanges (fun _ => SyncAttr.cached)
      (Function.update team 1 next 1).party.superstep := by
    rw [own, still, superstep]
    decide
  have remote : (Function.update team 1 next 1).party.verbs.syncRequest.remoteMsgs = 1 := by
    rw [own]
    exact repeats.trans value
  rcases collectives_match _ again with ⟨_, _, _, waits, ints⟩
  rcases waits 1 (own ▸ active) (own ▸ same.trans first) mode silent with
    ⟨last, earlier, _, exchanges, _, sum⟩
  exact ⟨_, remote, ints 1, last, earlier, exchanges, remote.symm.trans sum⟩

end Team

end IBVerbs

end Talpf
