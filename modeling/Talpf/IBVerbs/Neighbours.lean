import Talpf.IBVerbs.Expectations
import Talpf.IBVerbs.Ranges

/-!
# Cached syncs of a fixed pattern

Every process sends the same numbers of messages in each superstep, and processes
that send to each other do so in both directions.  All supersteps end in the
CACHED mode without a barrier, so that only the first sync exchanges the counts.
Since a process waits for its neighbours, it is never more than one superstep
ahead of them, and the tags of the messages that it receives are never confused.
-/

namespace Talpf

namespace IBVerbs

variable {n : ℕ}

namespace Party

variable {party after : Party n}

/-- What a process remembers of the exchange of the counts. -/
theorem Moves.cache_cases {p : Fin n} {action : World.Action n}
    (moves : party.Moves p action after) :
    (after.verbs.syncCached = party.verbs.syncCached ∧
        after.verbs.syncCachedValue = party.verbs.syncCachedValue ∧
        ∀ task attr counts, party.phase = .counted task attr counts →
          after.phase = .counted task attr counts) ∨
      (∃ task attr, party.phase = .drained task attr ∧ action = .readCounts p ∧
        after = party.readCounts task attr) ∨
      ∃ task attr counts remoteMsgs, party.phase = .counted task attr counts ∧
        action = .exchange ∧ after = party.exchanged task attr remoteMsgs := by
  cases moves with
  | post task kind peer =>
      left
      rw [Party.post, OperationKind.post_eq]
      exact ⟨rfl, rfl, fun _ _ _ phase => phase⟩
  | remoteProgress wcs =>
      left
      rw [doRemoteProgress_eq]
      exact ⟨rfl, rfl, fun _ _ _ phase => phase⟩
  | drain idle task attr =>
      refine Or.inl ⟨rfl, rfl, ?_⟩
      intro _ _ _ phase
      cases idle.symm.trans phase
  | @readCounts task attr drained => exact Or.inr (Or.inl ⟨task, attr, drained, rfl, rfl⟩)
  | @exchange task attr counts counted remoteMsgs =>
      exact Or.inr (Or.inr ⟨task, attr, counts, remoteMsgs, counted, rfl, rfl⟩)
  | request ready accepted =>
      rcases Option.map_eq_some_iff.mp accepted with ⟨verbs, requests, rfl⟩
      rw [requestSync] at requests
      split at requests
      next => cases requests
      next =>
        rw [Option.some.injEq] at requests
        subst requests
        refine Or.inl ⟨rfl, rfl, ?_⟩
        intro _ _ _ phase
        cases ready.symm.trans phase
  | processSyncRequest active processed =>
      rename_i flag
      have phase := phase_processSyncRequest processed
      rw [Party.processSyncRequest] at processed
      rcases processSyncRequest_cases party.verbs flag with waits | faults |
        ⟨recvCounts, syncRequest, ⟨starts, _⟩ | ⟨completes, _⟩⟩
      · rw [waits, Option.some.injEq] at processed
        exact Or.inl (processed ▸ ⟨rfl, rfl, fun _ _ _ phase => phase⟩)
      · rw [faults] at processed
        cases processed
      · rw [starts, Option.some.injEq] at processed
        exact Or.inl (processed ▸ ⟨rfl, rfl, fun _ _ _ phase => phase⟩)
      · rw [completes, Option.some.injEq] at processed
        exact Or.inl (processed ▸ ⟨rfl, rfl, fun _ _ _ phase => phase⟩)
  | _ => exact Or.inl ⟨rfl, rfl, fun _ _ _ phase => phase⟩

/-- In the CACHED mode the counts are exchanged unless a number is cached. -/
theorem readCounts_cached (party : Party n) (task : Task) :
    (party.verbs.syncCached = true ∧
      (party.readCounts task .cached).phase = .ready task false party.verbs.syncCachedValue ∧
      (party.readCounts task .cached).verbs.syncCachedValue = party.verbs.syncCachedValue) ∨
    (party.readCounts task .cached).phase = .counted task .cached party.verbs.numMsgsSync := by
  have mode : SyncAttr.cached.mode = .cached := by decide
  have barrier : SyncAttr.cached.barrier = false := by decide
  rw [Party.readCounts, mode]
  dsimp only
  split
  next already =>
    rw [barrier]
    exact Or.inl ⟨already, rfl, rfl⟩
  next => exact Or.inr rfl

/-- An epoch ends when the counts are read. -/
theorem Moves.epoch_cases {p : Fin n} {action : World.Action n}
    (moves : party.Moves p action after) : after.epoch = party.epoch ∨
      ∃ task attr, party.phase = .drained task attr ∧ after.epoch = party.epoch + 1 := by
  cases moves with
  | @readCounts task attr drained =>
      exact Or.inr ⟨task, attr, drained, epoch_readCounts party task attr⟩
  | request _ accepted =>
      rcases Option.map_eq_some_iff.mp accepted with ⟨_, _, rfl⟩
      exact Or.inl rfl
  | processSyncRequest active processed =>
      exact Or.inl (frame_processSyncRequest processed).1
  | _ => exact Or.inl rfl

/-- When the wait for local completion is over. -/
theorem Moves.drained_cases {p : Fin n} {action : World.Action n}
    (moves : party.Moves p action after) {task : Task} {attr : SyncAttr}
    (drained : after.phase = .drained task attr) :
    (party.phase = .drained task attr ∧ after.epoch = party.epoch) ∨
      (action = .drain p task attr ∧ after.log = party.log ∧ after.epoch = party.epoch) := by
  cases moves with
  | drain idle task attr =>
      cases drained
      exact Or.inr ⟨rfl, rfl, rfl⟩
  | readCounts =>
      rw [Party.readCounts] at drained
      split at drained
      · split at drained <;> cases drained
      all_goals cases drained
  | exchange => cases drained
  | request _ accepted =>
      rcases Option.map_eq_some_iff.mp accepted with ⟨_, _, rfl⟩
      cases drained
  | processSyncRequest active processed =>
      rw [phase_processSyncRequest processed] at drained
      exact Or.inl ⟨drained, (frame_processSyncRequest processed).1⟩
  | _ => exact Or.inl ⟨drained, rfl⟩

/-- Only operations of the epoch under way are not complete, and none is during a sync. -/
structure Polled (party : Party n) : Prop where
  idle : party.phase = .idle → party.unpolled.card ≤ ∑ q, party.sent q party.epoch
  busy : party.phase ≠ .idle → party.unpolled.card = 0

theorem Polled.initial (device : Device n) : (initial device).Polled where
  idle _ := Nat.zero_le _
  busy other := absurd rfl other

/-- What adds no operation and leaves the sync where it is. -/
theorem Polled.mono (polled : party.Polled) (phase : after.phase = party.phase)
    (log : after.log = party.log) (epoch : after.epoch = party.epoch)
    (fewer : after.unpolled.card ≤ party.unpolled.card) : after.Polled where
  idle := by
    intro idle
    have atMost := polled.idle (phase ▸ idle)
    simp only [sent, log, epoch] at atMost ⊢
    exact fewer.trans atMost
  busy := by
    intro busy
    have none := polled.busy (phase ▸ busy)
    omega

theorem Polled.of_none (none : party.unpolled.card = 0) : party.Polled where
  idle _ := none ▸ Nat.zero_le _
  busy _ := none

theorem Moves.polled {p : Fin n} {action : World.Action n} (moves : party.Moves p action after)
    (polled : party.Polled)
    (posts : ∀ task kind peer, action = .post p task kind peer → party.phase = .idle)
    (drains : ∀ task attr, action = .drain p task attr → party.unpolled.card = 0) :
    after.Polled := by
  cases moves with
  | stays => exact polled
  | post task kind peer =>
      have idle := posts task kind peer rfl
      have atMost := polled.idle idle
      refine ⟨fun _ => ?_, fun busy => absurd idle busy⟩
      have more : (party.post task kind peer).unpolled.card = party.unpolled.card + 1 := by
        simp only [unpolled, Party.post, Multiset.card_add, Multiset.card_cons]
        omega
      have sum : ∑ q, (party.post task kind peer).sent q (party.post task kind peer).epoch =
          ∑ q, party.sent q party.epoch + 1 := by
        have counts : ∀ q, (party.post task kind peer).sent q (party.post task kind peer).epoch =
            party.sent q party.epoch + if peer = q then 1 else 0 := by
          intro q
          rw [sent_post]
          simp [Party.post]
        rw [Finset.sum_congr rfl fun q _ => counts q, Finset.sum_add_distrib, Finset.sum_ite_eq,
          if_pos (Finset.mem_univ peer)]
      omega
  | complete first =>
      refine polled.mono rfl rfl rfl ?_
      simp [unpolled, first]
  | localProgress isPolled =>
      refine polled.mono rfl rfl rfl ?_
      simp only [unpolled, Party.localProgress, isPolled, Multiset.card_add]
      omega
  | remoteProgress wcs => exact polled.mono rfl rfl rfl (Nat.le_refl _)
  | drain idle task attr => exact .of_none (drains task attr rfl)
  | @readCounts task attr drained =>
      apply Polled.of_none
      rw [unpolled_readCounts]
      exact polled.busy (by simp [drained])
  | exchange counted remoteMsgs => exact .of_none (polled.busy (by simp [counted]))
  | request ready accepted =>
      rcases Option.map_eq_some_iff.mp accepted with ⟨_, _, rfl⟩
      exact .of_none (polled.busy (by simp [ready]))
  | processSyncRequest active processed =>
      rcases frame_processSyncRequest processed with ⟨epoch, log⟩
      refine polled.mono (phase_processSyncRequest processed) log epoch ?_
      rw [Party.processSyncRequest] at processed
      split at processed
      next => cases processed; exact Nat.le_refl _
      next => cases processed; exact Nat.le_refl _
      next => cases processed; exact Nat.le_refl _
      next => cases processed

end Party

namespace World

variable {world after : World n} {action : Action n} {c : Fin n → Fin n → ℕ}

/-- Every process posts the operations of the pattern before each of its syncs. -/
def Pattern (c : Fin n → Fin n → ℕ) (world : World n) : Action n → Prop
  | .post pid _ _ peer => (world.parties pid).verbs.numMsgsSync peer < c pid peer
  | .drain pid _ _ => ∀ peer, (world.parties pid).verbs.numMsgsSync peer = c pid peer
  | _ => True

/-- What a process sends in a superstep fits an `int`, and so does what is sent to it. -/
def Fits (c : Fin n → Fin n → ℕ) : Prop := ∀ p, ∑ q, c p q < 2 ^ 31 ∧ ∑ q, c q p < 2 ^ 31

/-- All supersteps of the pattern end in the CACHED mode without a barrier, and no process posts
from the reading of its counts to the end of its sync. -/
def CachedPattern (c : Fin n → Fin n → ℕ) (world : World n) (action : Action n) : Prop :=
  world.Quiet action ∧ world.Uniform (fun _ => .cached) action ∧ world.Pattern c action

/-- What is posted and remembered in a run of the pattern -/
structure Patterned (c : Fin n → Fin n → ℕ) (world : World n) : Prop where
  sent_le : ∀ q p epoch, (world.parties q).sent p epoch ≤ c q p
  sent : ∀ q p epoch, epoch < (world.parties q).epoch → (world.parties q).sent p epoch = c q p
  drained : ∀ q task attr, (world.parties q).phase = .drained task attr →
    ∀ p, (world.parties q).sent p (world.parties q).epoch = c q p
  ready : ∀ p task barrier remoteMsgs, (world.parties p).phase = .ready task barrier remoteMsgs →
    remoteMsgs = ∑ q, (c q p : Int)
  cached : ∀ p, (world.parties p).verbs.syncCached = true →
    (∀ task attr counts, (world.parties p).phase ≠ .counted task attr counts) →
      (world.parties p).verbs.syncCachedValue = ∑ q, (c q p : Int)
  superstep : ∀ q, ∀ op ∈ (world.parties q).log, op.superstep ≤ (world.parties q).superstep

theorem patterned_initial (devices : Fin n → Device n) : (initial devices).Patterned c where
  sent_le _ _ _ := Nat.zero_le _
  sent := by
    intro p q superstep early
    cases early
  drained := by
    intro q task attr phase
    cases phase
  ready := by
    intro p task barrier remoteMsgs phase
    cases phase
  cached := by
    intro p cached
    cases cached
  superstep := by
    intro q op member
    cases Multiset.notMem_zero op member

/-- The exchange tells a process how many messages the pattern sends to it. -/
theorem Patterned.exchange (patterned : world.Patterned c) (tracked : world.Tracked)
    (taken : Step world .exchange after) (p : Fin n) :
    ∃ task attr counts, (world.parties p).phase = .counted task attr counts ∧
      after.parties p = (world.parties p).exchanged task attr (∑ q, (c q p : Int)) := by
  rcases taken with ⟨task, attr, counts, rounds, told, counted, execution, rfl⟩
  refine ⟨task p, attr p, counts p, counted p, ?_⟩
  have sum : told p = ∑ q, (c q p : Int) := by
    rw [exchangeCounts_sum execution p]
    apply Finset.sum_congr rfl
    intro q _
    have epoch := (tracked.parties q).epoch
    rw [counted q, SyncPhase.begun] at epoch
    rw [(tracked.parties q).counted _ _ _ (counted q) p, patterned.sent q p _ (by omega)]
  show (world.parties p).exchanged (task p) (attr p) (told p) = _
  rw [sum]

namespace Patterned

/-- What is posted in a step stays within the pattern. -/
theorem sent_step (patterned : world.Patterned c) (tracked : world.Tracked)
    (allowed : world.Pattern c action) (taken : Step world action after) (q p : Fin n)
    (epoch : ℕ) : (after.parties q).sent p epoch ≤ c q p ∧
      ((after.parties q).sent p epoch = (world.parties q).sent p epoch ∨
        (epoch = (world.parties q).epoch ∧ (world.parties q).sent p epoch < c q p)) := by
  rcases (taken.moves q).frame with ⟨log, _⟩ | ⟨task, kind, peer, rfl, posted⟩
  · rw [Party.sent, log]
    exact ⟨patterned.sent_le q p epoch, Or.inl rfl⟩
  · have fewer : (world.parties q).verbs.numMsgsSync peer < c q peer := allowed
    rw [(tracked.parties q).conserved.numMsgsSync peer] at fewer
    rw [posted, Party.sent_post]
    split
    next here =>
      rcases here with ⟨rfl, rfl⟩
      exact ⟨by omega, Or.inr ⟨rfl, by omega⟩⟩
    next => exact ⟨patterned.sent_le q p epoch, Or.inl rfl⟩

/-- Operations of an ended epoch are all there and stay so. -/
theorem earlier_step (patterned : world.Patterned c) (tracked : world.Tracked)
    (allowed : world.Pattern c action) (taken : Step world action after) (q p : Fin n)
    {epoch : ℕ} (earlier : epoch < (after.parties q).epoch) :
    (after.parties q).sent p epoch = c q p := by
  rcases (patterned.sent_step tracked allowed taken q p epoch).2 with same | ⟨rfl, fewer⟩
  · rw [same]
    rcases (taken.moves q).epoch_cases with sameEpoch | ⟨task, attr, drained, next⟩
    · exact patterned.sent q p epoch (sameEpoch ▸ earlier)
    · rw [next] at earlier
      rcases Nat.lt_succ_iff_lt_or_eq.mp earlier with before | rfl
      · exact patterned.sent q p epoch before
      · exact patterned.drained q task attr drained p
  · rcases (taken.moves q).epoch_cases with sameEpoch | ⟨task, attr, drained, _⟩
    · omega
    · have all := patterned.drained q task attr drained p
      omega

/-- When the wait for local completion is over, the superstep is posted in full. -/
theorem drained_step (patterned : world.Patterned c) (tracked : world.Tracked)
    (allowed : world.Pattern c action) (taken : Step world action after) {q : Fin n} {task : Task}
    {attr : SyncAttr} (drained : (after.parties q).phase = .drained task attr) (p : Fin n) :
    (after.parties q).sent p (after.parties q).epoch = c q p := by
  rcases (taken.moves q).drained_cases drained with ⟨before, epoch⟩ | ⟨rfl, log, epoch⟩
  · have all := patterned.drained q task attr before p
    rw [epoch]
    rcases (patterned.sent_step tracked allowed taken q p _).2 with same | ⟨_, fewer⟩
    · rw [same]
      exact all
    · omega
  · have all : (world.parties q).verbs.numMsgsSync p = c q p := allowed p
    rw [(tracked.parties q).conserved.numMsgsSync p] at all
    rw [Party.sent, log, epoch]
    exact_mod_cast all

/-- A sync either exchanges its counts or goes on with the number that the pattern has. -/
theorem readCounts_cases (patterned : world.Patterned c) (inLine : world.InLine fun _ => .cached)
    {p : Fin n} {task : Task} {attr : SyncAttr}
    (drained : (world.parties p).phase = .drained task attr) :
    (((world.parties p).readCounts task attr).phase = .ready task false (∑ q, (c q p : Int)) ∧
      ((world.parties p).readCounts task attr).verbs.syncCachedValue = ∑ q, (c q p : Int)) ∨
      ∃ counts, ((world.parties p).readCounts task attr).phase = .counted task attr counts := by
  have follows := inLine.follows p
  simp only [Party.Follows, drained] at follows
  rw [follows.2.2]
  rcases Party.readCounts_cached (world.parties p) task with ⟨already, ready, value⟩ | counted
  · have cached : (world.parties p).verbs.syncCachedValue = ∑ q, (c q p : Int) := by
      apply patterned.cached p already
      intro _ _ _ phase
      cases drained.symm.trans phase
    rw [ready, value, cached]
    exact Or.inl ⟨rfl, rfl⟩
  · exact Or.inr ⟨_, counted⟩

theorem ready_step (patterned : world.Patterned c) (tracked : world.Tracked)
    (inLine : world.InLine fun _ => .cached) (taken : Step world action after) {p : Fin n}
    {task : Task} {barrier : Bool} {remoteMsgs : Int}
    (ready : (after.parties p).phase = .ready task barrier remoteMsgs) :
    remoteMsgs = ∑ q, (c q p : Int) := by
  rcases (taken.moves p).ready_cases ready with ⟨before, _⟩ |
    ⟨itsTask, attr, drained, _, isRead⟩ | ⟨itsTask, attr, counts, counted, rfl, told⟩
  · exact patterned.ready p task barrier remoteMsgs before
  · rw [isRead] at ready
    rcases patterned.readCounts_cases inLine drained with ⟨isReady, _⟩ | ⟨counts, isCounted⟩
    · cases isReady.symm.trans ready
      rfl
    · cases isCounted.symm.trans ready
  · rcases patterned.exchange tracked taken p with ⟨_, _, _, _, told'⟩
    rw [told'] at ready
    cases ready
    rfl

theorem cached_step (patterned : world.Patterned c) (tracked : world.Tracked)
    (inLine : world.InLine fun _ => .cached) (taken : Step world action after) {p : Fin n}
    (already : (after.parties p).verbs.syncCached = true)
    (other : ∀ task attr counts, (after.parties p).phase ≠ .counted task attr counts) :
    (after.parties p).verbs.syncCachedValue = ∑ q, (c q p : Int) := by
  rcases (taken.moves p).cache_cases with ⟨sameCached, sameValue, phase⟩ |
    ⟨task, attr, drained, _, isRead⟩ | ⟨_, _, _, _, _, rfl, _⟩
  · rw [sameValue]
    exact patterned.cached p (sameCached ▸ already) fun task attr counts counted =>
      other task attr counts (phase task attr counts counted)
  · rw [isRead] at other ⊢
    rcases patterned.readCounts_cases inLine drained with ⟨_, value⟩ | ⟨counts, isCounted⟩
    · exact value
    · exact absurd isCounted (other _ _ _)
  · rcases patterned.exchange tracked taken p with ⟨_, _, _, _, told⟩
    rw [told]
    rfl

theorem superstep_step (patterned : world.Patterned c) (taken : Step world action after)
    (q : Fin n) : ∀ op ∈ (after.parties q).log, op.superstep ≤ (after.parties q).superstep := by
  intro op member
  have further : (world.parties q).superstep ≤ (after.parties q).superstep := by
    rcases (taken.moves q).superstep_cases with same | ⟨flag, _, active, processed⟩
    · exact same.ge
    · rcases Party.look_effect active processed with same | ⟨same, _⟩ | ⟨next, _⟩
      · exact same ▸ Nat.le_refl _
      · exact same.ge
      · exact next ▸ Nat.le_succ _
  rcases (taken.moves q).frame with ⟨log, _⟩ | ⟨task, kind, peer, rfl, posted⟩
  · rw [log] at member
    exact Nat.le_trans (patterned.superstep q op member) further
  · rw [posted] at member further ⊢
    rcases Multiset.mem_cons.mp member with rfl | old
    · exact further
    · exact Nat.le_trans (patterned.superstep q op old) further

theorem step (patterned : world.Patterned c) (tracked : world.Tracked)
    (inLine : world.InLine fun _ => .cached) (allowed : world.Pattern c action)
    (taken : Step world action after) : after.Patterned c where
  sent_le q p epoch := (patterned.sent_step tracked allowed taken q p epoch).1
  sent q p _ earlier := patterned.earlier_step tracked allowed taken q p earlier
  drained _ _ _ drained p := patterned.drained_step tracked allowed taken drained p
  ready _ _ _ _ ready := patterned.ready_step tracked inLine taken ready
  cached _ already other := patterned.cached_step tracked inLine taken already other
  superstep q := patterned.superstep_step taken q

theorem notifications_le (patterned : world.Patterned c) (level : world.Level) (q p : Fin n)
    (superstep : ℕ) : (world.parties q).notifications p superstep ≤ c q p := by
  rw [level.notifications]
  exact patterned.sent_le q p superstep

theorem notified_le (patterned : world.Patterned c) (level : world.Level) (p : Fin n)
    (superstep : ℕ) : world.notified p superstep ≤ ∑ q, c q p := by
  rw [notified_eq_sum]
  exact Finset.sum_le_sum fun q _ => patterned.notifications_le level q p superstep

/-- Everything is sent in the supersteps whose counts are read. -/
theorem notified_eq (patterned : world.Patterned c) (level : world.Level) {superstep : ℕ}
    (read : ∀ q, superstep < (world.parties q).epoch) (p : Fin n) :
    world.notified p superstep = ∑ q, c q p := by
  rw [notified_eq_sum]
  apply Finset.sum_congr rfl
  intro q _
  rw [level.notifications]
  exact patterned.sent q p superstep (read q)

/-- Operations of the pattern are posted outside of syncs only. -/
theorem idle_of_post (patterned : world.Patterned c) (tracked : world.Tracked) {pid peer : Fin n}
    {task : Task} {kind : OperationKind} (quiet : world.Quiet (.post pid task kind peer))
    (allowed : world.Pattern c (.post pid task kind peer)) : (world.parties pid).phase = .idle := by
  rcases quiet.1 with idle | ⟨itsTask, attr, drained⟩
  · exact idle
  · have fewer : (world.parties pid).verbs.numMsgsSync peer < c pid peer := allowed
    rw [(tracked.parties pid).conserved.numMsgsSync peer,
      patterned.drained pid itsTask attr drained peer] at fewer
    exact absurd fewer (Int.lt_irrefl _)

theorem polled_step (patterned : world.Patterned c) (tracked : world.Tracked)
    (quiet : world.Quiet action) (allowed : world.Pattern c action)
    (polled : ∀ p, (world.parties p).Polled) (taken : Step world action after) (p : Fin n) :
    (after.parties p).Polled := by
  apply (taken.moves p).polled (polled p)
  · rintro task kind peer rfl
    exact patterned.idle_of_post tracked quiet allowed
  · rintro task attr rfl
    have numMsgs := (tracked.parties p).conserved.numMsgs
    have complete := taken.2.1
    omega

/-- A pattern whose numbers of messages fit keeps all counters in range. -/
theorem inRange (patterned : world.Patterned c) (tracked : world.Tracked)
    (polled : ∀ p, (world.parties p).Polled) (fits : Fits c) (quiet : world.Quiet action)
    (allowed : world.Pattern c action) (next : after.Patterned c) (level : after.Level)
    (settled : after.Settled) (taken : Step world action after) : world.InRange action := by
  cases action with
  | post pid task kind peer =>
      have fewer : (world.parties pid).verbs.numMsgsSync peer < c pid peer := allowed
      have among : c pid peer ≤ ∑ q, c pid q :=
        Finset.single_le_sum (fun q _ => Nat.zero_le (c pid q)) (Finset.mem_univ peer)
      have sum := (fits pid).1
      have numMsgs := (tracked.parties pid).conserved.numMsgs
      have atMost := (polled pid).idle (patterned.idle_of_post tracked quiet allowed)
      have sent : ∑ q, (world.parties pid).sent q (world.parties pid).epoch < ∑ q, c pid q := by
        apply Finset.sum_lt_sum fun q _ => patterned.sent_le pid q _
        refine ⟨peer, Finset.mem_univ peer, ?_⟩
        rw [(tracked.parties pid).conserved.numMsgsSync peer] at fewer
        exact_mod_cast fewer
      constructor <;> omega
  | remoteProgress pid wcs =>
      exact inRange_poll settled
        (fun p superstep => (next.notified_le level p superstep).trans_lt (fits p).2) taken
  | exchange =>
      intro counts counted p
      have sum : ∑ q, counts q p = ∑ q, (c q p : Int) := by
        apply Finset.sum_congr rfl
        intro q _
        rcases counted q with ⟨task, attr, phase⟩
        have epoch := (tracked.parties q).epoch
        rw [phase, SyncPhase.begun] at epoch
        rw [(tracked.parties q).counted _ _ _ phase p, patterned.sent q p _ (by omega)]
      rw [sum]
      exact_mod_cast (fits p).2
  | _ => trivial

/-- Every sync waits for what the pattern sends to its process. -/
theorem expected (patterned : world.Patterned c) (tracked : world.Tracked) (level : world.Level)
    (quiet : world.Quiet action) (allowed : world.Pattern c action) :
    world.Expected (fun p _ => ∑ q, c q p) action := by
  cases action with
  | post pid task kind peer =>
      have fewer : (world.parties pid).verbs.numMsgsSync peer < c pid peer := allowed
      rw [(tracked.parties pid).conserved.numMsgsSync peer, tracked.epoch_of_quiet quiet] at fewer
      show world.notified peer (world.parties pid).superstep < ∑ q, c q peer
      rw [notified_eq_sum]
      apply Finset.sum_lt_sum fun q _ => patterned.notifications_le level q peer _
      refine ⟨pid, Finset.mem_univ pid, ?_⟩
      rw [level.notifications]
      exact_mod_cast fewer
  | request pid =>
      intro task barrier remoteMsgs ready
      rw [patterned.ready pid task barrier remoteMsgs ready]
      push_cast
      rfl
  | _ => trivial

/-- A process is at most one superstep ahead of those that send to it. -/
theorem skew (patterned : world.Patterned c) (level : world.Level)
    (exhausts : world.Exhausts fun p _ => ∑ q, c q p) {q p : Fin n} (sends : 0 < c q p) :
    (world.parties p).superstep ≤ (world.parties q).superstep + 1 := by
  by_contra ahead
  have counted : (world.parties q).superstep + 1 < (world.parties p).taken := by
    rw [Party.taken]
    omega
  have all := exhausts.counted p _ counted
  rw [notified_eq_sum, Finset.sum_eq_sum_iff_of_le fun r _ =>
    patterned.notifications_le level r p _] at all
  have some : 0 < (world.parties q).notifications p ((world.parties q).superstep + 1) := by
    rw [all q (Finset.mem_univ q)]
    exact sends
  rcases Multiset.countP_pos.mp some with ⟨op, logged, _, now⟩
  have already := patterned.superstep q op logged
  omega

/-- A notification comes from a neighbour, which is close. -/
theorem near (patterned : world.Patterned c) (symmetric : ∀ p q, 0 < c p q ↔ 0 < c q p)
    (level : world.Level) (settled : world.Settled)
    (exhausts : world.Exhausts fun p _ => ∑ q, c q p) (taken : Step world action after) :
    world.Near action := by
  cases action with
  | remoteProgress pid wcs =>
      intro wc member
      rcases taken with ⟨rest, polled, _⟩
      have onWay : wc ∈ world.travelling pid := by
        rw [polled]
        exact Multiset.mem_add.mpr (Or.inl member)
      rcases mem_addressed.mp (Multiset.mem_of_le (settled.travelling pid) onWay) with
        ⟨q, logged, toPid⟩
      have some : 0 < (world.parties q).notifications pid wc.superstep :=
        Multiset.countP_pos.mpr ⟨wc, logged, toPid, rfl⟩
      have sends : 0 < c q pid := Nat.lt_of_lt_of_le some
        (patterned.notifications_le level q pid wc.superstep)
      have close := patterned.skew level exhausts ((symmetric q pid).mp sends)
      have sent := patterned.superstep q wc logged
      omega
  | _ => trivial

end Patterned

/-- The ring and the messages of the pattern -/
theorem Reachable.patterned {devices : Fin n → Device n}
    (symmetric : ∀ p q, 0 < c p q ↔ 0 < c q p) (run : Reachable devices (CachedPattern c) world) :
    world.Patterned c ∧ world.Settled ∧ world.Exhausts fun p _ => ∑ q, c q p := by
  have known : ∀ reached, Reachable devices (CachedPattern c) reached →
      reached.Tracked ∧ reached.Level ∧ reached.InLine fun _ => .cached := by
    intro reached run
    exact ⟨Reachable.tracked run, Reachable.level (run.mono fun _ _ all => all.1),
      Reachable.inLine (run.mono fun _ _ all => all.2.1)⟩
  apply run.invariant_of known
    ⟨patterned_initial devices, settled_initial devices, exhausts_initial devices⟩
  rintro before action after ⟨tracked, level, inLine⟩ _ ⟨patterned, settled, exhausts⟩
    ⟨quiet, _, allowed⟩ taken
  have expected := patterned.expected tracked level quiet allowed
  have near := patterned.near symmetric level settled exhausts taken
  exact ⟨patterned.step tracked inLine allowed taken,
    settled.step tracked (exhausts.punctual settled expected near) taken,
    exhausts.step settled tracked expected near taken⟩

theorem Reachable.polled {devices : Fin n → Device n} (symmetric : ∀ p q, 0 < c p q ↔ 0 < c q p)
    (run : Reachable devices (CachedPattern c) world) (p : Fin n) :
    (world.parties p).Polled := by
  have known : ∀ reached, Reachable devices (CachedPattern c) reached →
      reached.Tracked ∧ reached.Patterned c :=
    fun reached run => ⟨Reachable.tracked run, (Reachable.patterned symmetric run).1⟩
  revert p
  apply run.invariant_of known fun p => Party.Polled.initial (devices p)
  rintro before action after ⟨tracked, patterned⟩ _ polled ⟨quiet, _, allowed⟩ taken
  exact patterned.polled_step tracked quiet allowed polled taken

/-- In a run of a pattern whose numbers fit no counter leaves its range. -/
theorem Reachable.ints_of_pattern {devices : Fin n → Device n} (fits : Fits c)
    (symmetric : ∀ p q, 0 < c p q ↔ 0 < c q p) (run : Reachable devices (CachedPattern c) world) :
    world.Ints := by
  have known : ∀ reached, Reachable devices (CachedPattern c) reached → reached.Tracked ∧
      reached.Level ∧ reached.Patterned c ∧ reached.Settled ∧
        ∀ p, (reached.parties p).Polled := by
    intro reached run
    rcases Reachable.patterned symmetric run with ⟨patterned, settled, _⟩
    exact ⟨Reachable.tracked run, Reachable.level (run.mono fun _ _ all => all.1), patterned,
      settled, Reachable.polled symmetric run⟩
  apply run.ints_of known
  rintro before action after ⟨tracked, _, patterned, _, polled⟩ ⟨_, level, next, settled, _⟩
    ⟨quiet, _, allowed⟩ taken
  exact patterned.inRange tracked polled fits quiet allowed next level settled taken

/-- The sync that ends a superstep counts exactly the messages of the neighbours in that superstep,
neighbours stay within one superstep of each other, and no counter leaves its range. -/
theorem cachedPattern_countsExactly (devices : Fin n → Device n) (fits : Fits c)
    (symmetric : ∀ p q, 0 < c p q ↔ 0 < c q p) (run : Reachable devices (CachedPattern c) world) :
    (∀ p after, world.Completes p after → ∃ entry, world.CountsExactly p entry ∧
      (world.parties p).verbs.syncRequest.remoteMsgs = ∑ q, (c q p : Int) ∧
      (after.parties p).verbs.recvCounts entry = 0) ∧
    (∀ p q, 0 < c p q → (world.parties p).superstep ≤ (world.parties q).superstep + 1) ∧
      world.Ints := by
  have tracked := Reachable.tracked run
  have level := Reachable.level (run.mono fun _ _ all => all.1)
  rcases Reachable.patterned symmetric run with ⟨patterned, settled, exhausts⟩
  refine ⟨?_, ?_, run.ints_of_pattern fits symmetric⟩
  · intro p after completes
    have without : (world.parties p).WithBarrier false := by
      apply Reachable.withBarrier run
      intro world pid task attr allowed
      have isCached : attr = .cached := allowed.2.1
      rw [isCached]
      decide
    rcases completes.counts without with ⟨entry, counts, recvCounts⟩
    have first := (settled.phased p).first counts.2.1
    have told := exhausts.remoteMsgs p counts.1 first
    have enough : (world.notified p (world.parties p).superstep : Int) ≤
        (world.parties p).verbs.syncRequest.remoteMsgs := by
      rw [told]
      exact_mod_cast exhausts.bounded p _
    have exactly := settled.countsExactly tracked counts enough
    refine ⟨entry, exactly, ?_, recvCounts ▸ exactly.recvCounts_takeRecvs⟩
    rw [told]
    push_cast
    rfl
  · intro p q sends
    exact patterned.skew level exhausts ((symmetric p q).mp sends)

/-- A sync whose messages have all arrived counts them next. -/
theorem Reachable.counts_of_pattern {devices : Fin n → Device n}
    (symmetric : ∀ p q, 0 < c p q ↔ 0 < c q p) (run : Reachable devices (CachedPattern c) world)
    {p : Fin n} (nothing : world.travelling p = 0)
    (read : ∀ q, (world.parties p).superstep < (world.parties q).epoch)
    (active : (world.parties p).verbs.syncRequest.isActive = true)
    (first : (world.parties p).verbs.syncRequest.secondPhase = false) {entry : Fin 1024}
    (index : (world.parties p).verbs.syncIndex = some entry) :
    (world.parties p).Counts entry := by
  rcases Reachable.patterned symmetric run with ⟨patterned, settled, exhausts⟩
  have level := Reachable.level (run.mono fun _ _ all => all.1)
  have taken : (world.parties p).taken = (world.parties p).superstep := by
    rw [Party.taken, first]
    rfl
  refine ⟨active, fun both => Bool.false_ne_true (first.symm.trans both.2), index, ?_⟩
  rw [exhausts.remoteMsgs p active first, ← patterned.notified_eq level read]
  exact settled.notified_le nothing taken
    (syncIndex_of_superstep ((Reachable.tracked run).parties p).syncCounter index)

/-- What happens within a sync is subject to no rule. -/
theorem cachedPattern_of_inner (inner : Inner action) : world.CachedPattern c action := by
  cases action with
  | post | drain | processSyncRequest => exact inner.elim
  | _ => exact ⟨trivial, trivial, trivial⟩

/-- One message from each process to each other -/
def pairwise (p q : Fin n) : ℕ := if p = q then 0 else 1

theorem pairwise_symmetric (p q : Fin n) : 0 < pairwise p q ↔ 0 < pairwise q p := by
  simp only [pairwise, eq_comm]

/-- Two processes send each other a message, and process 0 completes its first sync. -/
theorem cachedPattern_countsExactly_pair : ∃ world after : World 2, world.Completes 0 after ∧
    world.notified 0 0 = 1 ∧ (∃ entry, world.CountsExactly 0 entry) ∧ world.Ints := by
  let first : Posted 2 := (Party.initial (.generous 2)).operation 5 1
  let second : Posted 2 := (Party.initial (.generous 2)).operation 5 0
  have started : Reachable (fun _ => .generous 2) (CachedPattern pairwise)
      (initial fun _ : Fin 2 => .generous 2) := Transition.Reachable.refl
  have posted := started.next (.post 0 5 .put 1) ⟨⟨Or.inl rfl, rfl⟩, trivial, Int.zero_lt_one⟩ rfl
  have both := posted.next (.post 1 5 .put 0) ⟨⟨Or.inl rfl, rfl⟩, trivial, Int.zero_lt_one⟩ rfl
  have completed := both.next (.complete 0 first) (cachedPattern_of_inner trivial) ⟨0, rfl, rfl⟩
  have completedToo := completed.next (.complete 1 second) (cachedPattern_of_inner trivial)
    ⟨0, rfl, rfl⟩
  have polled := completedToo.next (.localProgress 0 [first]) (cachedPattern_of_inner trivial)
    ⟨0, rfl, rfl⟩
  have polledToo := polled.next (.localProgress 1 [second]) (cachedPattern_of_inner trivial)
    ⟨0, rfl, rfl⟩
  obtain ⟨world, run, idle, complete, sent, inactive, uncached, isFirst, start, isZero, one⟩ :
      ∃ world : World 2, Reachable (fun _ => .generous 2) (CachedPattern pairwise) world ∧
        (∀ p, (world.parties p).phase = .idle) ∧
        (∀ p, ¬(world.parties p).verbs.numMsgs > 0) ∧
        (∀ p q, (world.parties p).verbs.numMsgsSync q = pairwise p q) ∧
        (∀ p, (world.parties p).verbs.syncRequest.isActive = false) ∧
        (∀ p, (world.parties p).verbs.syncCached = false) ∧
        (world.parties 0).verbs.syncRequest.secondPhase = false ∧
        (world.parties 0).verbs.syncCounter = BitVec.ofNat 32 0 ∧
        (∀ p, (world.parties p).superstep = 0) ∧ world.notified 0 0 = 1 :=
    ⟨_, polledToo, Fin.forall_fin_two.mpr ⟨rfl, rfl⟩,
      Fin.forall_fin_two.mpr ⟨by decide, by decide⟩,
      Fin.forall_fin_two.mpr
        ⟨Fin.forall_fin_two.mpr ⟨rfl, rfl⟩, Fin.forall_fin_two.mpr ⟨rfl, rfl⟩⟩,
      Fin.forall_fin_two.mpr ⟨rfl, rfl⟩, Fin.forall_fin_two.mpr ⟨rfl, rfl⟩, rfl, rfl,
      Fin.forall_fin_two.mpr ⟨rfl, rfl⟩, rfl⟩
  rcases exists_arrived run (fun _ => 6) .cached
    (fun reached p same => ⟨trivial, rfl, fun q => same ▸ sent p q⟩)
    (fun _ _ => cachedPattern_of_inner) idle complete inactive
    fun p q => (uncached p).trans (uncached q).symm with ⟨arrived, last, nothing, asked⟩
  have logs : ∀ q, (arrived.parties q).log = (world.parties q).log := fun q => (asked q).keeps.log
  have superstep : ∀ q, (arrived.parties q).superstep = 0 :=
    fun q => (asked q).keeps.superstep.trans (isZero q)
  have read : ∀ q, (arrived.parties 0).superstep < (arrived.parties q).epoch := by
    intro q
    have epoch := ((Reachable.tracked last).parties q).epoch
    rw [(asked q).isActive, if_pos rfl] at epoch
    rw [epoch, superstep, superstep]
    omega
  have counts := Reachable.counts_of_pattern pairwise_symmetric last (nothing 0) read
    (asked 0).isActive ((asked 0).keeps.secondPhase.trans isFirst)
    (syncIndex_start ((asked 0).keeps.syncCounter.trans start))
  rcases exists_completes counts (asked 0).withBarrier with ⟨after, completes⟩
  have fits : Fits (pairwise (n := 2)) := by
    unfold Fits
    decide
  rcases cachedPattern_countsExactly _ fits pairwise_symmetric last with ⟨exactly, _, ints⟩
  rcases exactly 0 after completes with ⟨entry, exactly, _⟩
  exact ⟨arrived, after, completes, (notified_congr logs 0 0).trans one, ⟨entry, exactly⟩, ints⟩

/-- A message of the next superstep that is posted after the counts are read, while no request is
active yet, has the tag of the superstep before and is counted for one that has not arrived. -/
theorem not_cachedPattern_countsExactly : ∃ world after : World 1,
    Reachable (fun _ => .generous 1) (fun world action => world.Unrequested action ∧
      world.Uniform (fun _ => .cached) action ∧ world.Pattern (fun _ _ => 1) action) world ∧
    world.Completes 0 after ∧ ∀ entry, ¬world.CountsExactly 0 entry := by
  let op : Posted 1 := (Party.initial (.generous 1)).operation 5 0
  let next : Posted 1 := ⟨5, 0, 0, 0, 1⟩
  have started : Reachable (fun _ => .generous 1) (fun world action => world.Unrequested action ∧
      world.Uniform (fun _ => .cached) action ∧ world.Pattern (fun _ _ => 1) action)
      (initial fun _ : Fin 1 => .generous 1) := Transition.Reachable.refl
  have posted := started.next (.post 0 5 .put 0) ⟨rfl, trivial, Int.zero_lt_one⟩ rfl
  have completed := posted.next (.complete 0 op) ⟨trivial, trivial, trivial⟩ ⟨0, rfl, rfl⟩
  have polled := completed.next (.localProgress 0 [op]) ⟨trivial, trivial, trivial⟩ ⟨0, rfl, rfl⟩
  have drained := polled.next (.drain 0 6 .cached)
    ⟨trivial, rfl, Fin.forall_fin_one.mpr rfl⟩ ⟨rfl, by decide, rfl⟩
  have counted := drained.next (.readCounts 0) ⟨trivial, trivial, trivial⟩ ⟨6, .cached, rfl, rfl⟩
  have again := counted.next (.post 0 5 .put 0) ⟨rfl, trivial, Int.zero_lt_one⟩ rfl
  rcases again.exchange ⟨trivial, trivial, trivial⟩ (fun _ => 6) (fun _ => .cached)
    (fun _ => Function.update (fun _ => 0) 0 (0 + 1)) (Fin.forall_fin_one.mpr rfl) with
    ⟨remoteMsgs, exchanged⟩
  have told : remoteMsgs = fun _ => 1 :=
    funext (Fin.forall_fin_one.mpr ((Reachable.tracked exchanged).remoteMsgs _
      List.mem_cons_self 0))
  rw [told] at exchanged
  have requested := exchanged.next (.request 0) ⟨trivial, trivial, trivial⟩
    ⟨6, false, 1, _, rfl, rfl, rfl⟩
  have arrived := requested.next (.remoteProgress 0 [next]) ⟨trivial, trivial, trivial⟩
    ⟨{op}, rfl, rfl⟩
  have index : (IBVerbs.initial (.generous 1)).syncIndex = some 0 := by decide
  obtain ⟨world, run, left, counts, without, isZero⟩ : ∃ world, Reachable (fun _ => .generous 1)
      (fun world action => world.Unrequested action ∧ world.Uniform (fun _ => .cached) action ∧
        world.Pattern (fun _ _ => 1) action) world ∧ op ∈ world.travelling 0 ∧
        (world.parties 0).Counts 0 ∧ (world.parties 0).verbs.syncRequest.withBarrier = false ∧
        (world.parties 0).superstep = 0 :=
    ⟨_, arrived, Multiset.mem_singleton_self op,
      ⟨rfl, fun both => Bool.false_ne_true both.1, index, Int.le_refl 1⟩, rfl, rfl⟩
  rcases exists_completes counts without with ⟨after, completes⟩
  refine ⟨world, after, run, completes, fun entry exactly => ?_⟩
  have late := exactly.delivered op left
  rw [isZero] at late
  exact Nat.lt_irrefl 0 late

end World

end IBVerbs

end Talpf
