import Talpf.IBVerbs.Deliveries
import Talpf.IBVerbs.Progress
import Mathlib.Algebra.Order.BigOperators.Group.Finset

/-!
# The ranges of the counters

Numbers of messages have type `int` in the class, and nothing in it watches over
their range.  In a run without an action that would leave the range all of them
stay numbers of messages, so that the integers of the model are those of the
class.  In such runs the counters are conserved.
-/

namespace Talpf

namespace IBVerbs

variable {n : ℕ}

/-- A number of messages that fits an `int` -/
def IsCount (count : Int) : Prop := 0 ≤ count ∧ count < 2 ^ 31

namespace IsCount

theorem zero : IsCount 0 := ⟨Int.le_refl 0, by decide⟩

theorem succ {count : Int} (isCount : IsCount count) (fits : count + 1 < 2 ^ 31) :
    IsCount (count + 1) := ⟨Int.add_nonneg isCount.1 (by decide), fits⟩

/-- Messages that have been counted are subtracted. -/
theorem sub {count taken : Int} (isCount : IsCount count) (isTaken : IsCount taken)
    (enough : taken ≤ count) : IsCount (count - taken) := by
  have large := isCount.2
  have positive := isTaken.1
  exact ⟨Int.sub_nonneg_of_le enough, by omega⟩

theorem natCast {count : ℕ} (fits : count < 2 ^ 31) : IsCount count :=
  ⟨Int.natCast_nonneg count, by exact_mod_cast fits⟩

end IsCount

/-- All counters of the class are in their range. -/
structure Ints (verbs : IBVerbs n) : Prop where
  numMsgs : IsCount verbs.numMsgs
  numMsgsSync : ∀ peer, IsCount (verbs.numMsgsSync peer)
  recvCounts : ∀ entry, IsCount (verbs.recvCounts entry)
  syncCachedValue : IsCount verbs.syncCachedValue
  remoteMsgs : IsCount verbs.syncRequest.remoteMsgs

namespace Party

/-- So are the numbers that a sync is working with. -/
structure Ints (party : Party n) : Prop where
  verbs : party.verbs.Ints
  counted : ∀ task attr counts, party.phase = .counted task attr counts →
    ∀ peer, IsCount (counts peer)
  ready : ∀ task barrier remoteMsgs, party.phase = .ready task barrier remoteMsgs →
    IsCount remoteMsgs

variable {party after : Party n}

theorem ints_initial (device : Device n) : (initial device).Ints where
  verbs := ⟨.zero, fun _ => .zero, fun _ => .zero, .zero, .zero⟩
  counted := by
    intro task attr counts phase
    cases phase
  ready := by
    intro task barrier remoteMsgs phase
    cases phase

theorem Ints.post (ints : party.Ints) (task : Task) (kind : OperationKind) (peer : Fin n)
    (numMsgs : party.verbs.numMsgs + 1 < 2 ^ 31)
    (numMsgsSync : party.verbs.numMsgsSync peer + 1 < 2 ^ 31) :
    (party.post task kind peer).Ints := by
  have counted : ∀ other, IsCount ((party.verbs.countOperation peer).numMsgsSync other) := by
    intro other
    rw [countOperation]
    dsimp only
    rw [Function.update_apply]
    split
    next => exact (ints.verbs.numMsgsSync peer).succ numMsgsSync
    next => exact ints.verbs.numMsgsSync other
  refine ⟨?_, ints.counted, ints.ready⟩
  rw [Party.post, OperationKind.post_eq]
  exact ⟨ints.verbs.numMsgs.succ numMsgs, counted, ints.verbs.recvCounts,
    ints.verbs.syncCachedValue, ints.verbs.remoteMsgs⟩

theorem Ints.localProgress (ints : party.Ints) (tracked : party.Tracked) {wcs : List (Posted n)}
    {rest : Multiset (Posted n)} (polled : party.completed = wcs + rest) :
    (party.localProgress wcs rest).Ints where
  verbs :=
    { numMsgs := by
        have numMsgs := (tracked.localProgress polled).conserved.numMsgs
        have large := ints.verbs.numMsgs.2
        have fewer : (party.localProgress wcs rest).verbs.numMsgs =
            party.verbs.numMsgs - wcs.length := rfl
        exact ⟨numMsgs ▸ Int.natCast_nonneg _, by omega⟩
      numMsgsSync := ints.verbs.numMsgsSync
      recvCounts := ints.verbs.recvCounts
      syncCachedValue := ints.verbs.syncCachedValue
      remoteMsgs := ints.verbs.remoteMsgs }
  counted := ints.counted
  ready := ints.ready

theorem Ints.remoteProgress (ints : party.Ints) (immData : List (BitVec 32))
    (fits : ∀ entry, (party.verbs.doRemoteProgress immData).recvCounts entry < 2 ^ 31) :
    ({ party with verbs := party.verbs.doRemoteProgress immData } : Party n).Ints := by
  refine ⟨?_, ints.counted, ints.ready⟩
  have recvCounts : ∀ entry, IsCount ((party.verbs.doRemoteProgress immData).recvCounts entry) := by
    intro entry
    refine ⟨?_, fits entry⟩
    rw [recvCounts_batch]
    exact Int.add_nonneg (ints.verbs.recvCounts entry).1 (Int.natCast_nonneg _)
  rw [doRemoteProgress_eq]
  exact ⟨ints.verbs.numMsgs, ints.verbs.numMsgsSync, recvCounts, ints.verbs.syncCachedValue,
    ints.verbs.remoteMsgs⟩

theorem Ints.readCounts (ints : party.Ints) (task : Task) (attr : SyncAttr) :
    (party.readCounts task attr).Ints := by
  have value : IsCount attr.value := .natCast (attr.value_lt.trans (by decide))
  have cleared : party.verbs.clearMsgsSync.Ints :=
    ⟨ints.verbs.numMsgs, fun _ => .zero, ints.verbs.recvCounts, ints.verbs.syncCachedValue,
      ints.verbs.remoteMsgs⟩
  have cached : ({ party.verbs.clearMsgsSync with syncCached := true } : IBVerbs n).Ints :=
    ⟨cleared.numMsgs, cleared.numMsgsSync, cleared.recvCounts, cleared.syncCachedValue,
      cleared.remoteMsgs⟩
  rw [Party.readCounts]
  cases attr.mode with
  | cached =>
      dsimp only
      split
      next =>
        refine ⟨cleared, by simp, ?_⟩
        intro _ _ _ ready
        cases ready
        exact cleared.syncCachedValue
      next =>
        refine ⟨cached, ?_, by simp⟩
        intro _ _ _ counted
        cases counted
        exact ints.verbs.numMsgsSync
  | default =>
      refine ⟨cleared, ?_, by simp⟩
      intro _ _ _ counted
      cases counted
      exact ints.verbs.numMsgsSync
  | msg =>
      refine ⟨cleared, by simp, ?_⟩
      intro _ _ _ ready
      cases ready
      exact value
  | unknown =>
      refine ⟨cleared, by simp, ?_⟩
      intro _ _ _ ready
      cases ready
      exact .zero

theorem Ints.exchanged (ints : party.Ints) (task : Task) (attr : SyncAttr) {remoteMsgs : Int}
    (fits : IsCount remoteMsgs) : (party.exchanged task attr remoteMsgs).Ints where
  verbs := ⟨ints.verbs.numMsgs, ints.verbs.numMsgsSync, ints.verbs.recvCounts, fits,
    ints.verbs.remoteMsgs⟩
  counted := by
    intro _ _ _ counted
    cases counted
  ready := by
    intro _ _ _ ready
    cases ready
    exact fits

theorem Ints.request (ints : party.Ints) {task : Task} {barrier : Bool} {remoteMsgs : Int}
    (ready : party.phase = .ready task barrier remoteMsgs)
    (accepted : party.request task barrier remoteMsgs = some after) : after.Ints := by
  rcases Option.map_eq_some_iff.mp accepted with ⟨verbs, requests, rfl⟩
  rw [requestSync] at requests
  split at requests
  next => cases requests
  next =>
    rw [Option.some.injEq] at requests
    subst requests
    refine ⟨⟨ints.verbs.numMsgs, ints.verbs.numMsgsSync, ints.verbs.recvCounts,
      ints.verbs.syncCachedValue, ints.ready _ _ _ ready⟩, ?_, ?_⟩
    · intro _ _ _ counted
      cases counted
    · intro _ _ _ again
      cases again

/-- What a look subtracts from the ring has been counted there. -/
theorem Ints.takeRecvs (ints : party.Ints) {entry : Fin 1024}
    (enough : party.verbs.syncRequest.remoteMsgs ≤ party.verbs.recvCounts entry) :
    (party.verbs.takeRecvs entry).Ints where
  numMsgs := ints.verbs.numMsgs
  numMsgsSync := ints.verbs.numMsgsSync
  recvCounts := by
    intro other
    rw [IBVerbs.takeRecvs]
    dsimp only
    rw [Function.update_apply]
    split
    next => exact (ints.verbs.recvCounts entry).sub ints.verbs.remoteMsgs enough
    next => exact ints.verbs.recvCounts other
  syncCachedValue := ints.verbs.syncCachedValue
  remoteMsgs := .zero

theorem Ints.processSyncRequest (ints : party.Ints) {flag : Bool}
    (processed : party.processSyncRequest flag = some after) : after.Ints := by
  rw [Party.processSyncRequest] at processed
  rcases look_cases party.verbs flag with waits | faults | ⟨_, finishes⟩ |
    ⟨entry, _, _, enough, ⟨_, starts⟩ | ⟨_, releases⟩⟩
  · rw [waits, Option.some.injEq] at processed
    exact processed ▸ ints
  · rw [faults] at processed
    cases processed
  · rw [finishes, Option.some.injEq] at processed
    subst processed
    exact ⟨⟨ints.verbs.numMsgs, ints.verbs.numMsgsSync, ints.verbs.recvCounts,
      ints.verbs.syncCachedValue, ints.verbs.remoteMsgs⟩, ints.counted, ints.ready⟩
  · have taken := ints.takeRecvs enough
    rw [starts, Option.some.injEq] at processed
    subst processed
    exact ⟨⟨taken.numMsgs, taken.numMsgsSync, taken.recvCounts, taken.syncCachedValue,
      taken.remoteMsgs⟩, ints.counted, ints.ready⟩
  · have taken := ints.takeRecvs enough
    rw [releases, Option.some.injEq] at processed
    subst processed
    exact ⟨⟨taken.numMsgs, taken.numMsgsSync, taken.recvCounts, taken.syncCachedValue,
      taken.remoteMsgs⟩, ints.counted, ints.ready⟩

/-- A process stays in range if its posts, its polls and what it is told do. -/
theorem Moves.ints {p : Fin n} {action : World.Action n} (moves : party.Moves p action after)
    (tracked : party.Tracked) (ints : party.Ints)
    (posts : ∀ task kind peer, action = .post p task kind peer →
      party.verbs.numMsgs + 1 < 2 ^ 31 ∧ party.verbs.numMsgsSync peer + 1 < 2 ^ 31)
    (polls : ∀ wcs, action = .remoteProgress p wcs → ∀ entry,
      (party.verbs.doRemoteProgress (wcs.map Posted.immData)).recvCounts entry < 2 ^ 31)
    (told : action = .exchange → ∀ task barrier remoteMsgs,
      after.phase = .ready task barrier remoteMsgs → IsCount remoteMsgs) : after.Ints := by
  cases moves with
  | stays => exact ints
  | post task kind peer =>
      rcases posts task kind peer rfl with ⟨numMsgs, numMsgsSync⟩
      exact ints.post task kind peer numMsgs numMsgsSync
  | complete first => exact ⟨ints.verbs, ints.counted, ints.ready⟩
  | localProgress polled => exact ints.localProgress tracked polled
  | remoteProgress wcs => exact ints.remoteProgress _ (polls wcs rfl)
  | drain idle task attr => exact ⟨ints.verbs, by simp, by simp⟩
  | readCounts drained => exact ints.readCounts _ _
  | exchange counted remoteMsgs => exact ints.exchanged _ _ (told rfl _ _ _ rfl)
  | request ready accepted => exact ints.request ready accepted
  | processSyncRequest active processed => exact ints.processSyncRequest processed

end Party

namespace World

variable {world after : World n} {action : Action n}

/-- No counter leaves its range: not by a post, nor by the arrival of notifications, nor by the sum
of an exchange. -/
def InRange (world : World n) : Action n → Prop
  | .post pid _ _ peer => (world.parties pid).verbs.numMsgs + 1 < 2 ^ 31 ∧
      (world.parties pid).verbs.numMsgsSync peer + 1 < 2 ^ 31
  | .remoteProgress pid wcs => ∀ entry, ((world.parties pid).verbs.doRemoteProgress
      (wcs.map Posted.immData)).recvCounts entry < 2 ^ 31
  | .exchange => ∀ counts : Fin n → Fin n → Int,
      (∀ p, ∃ task attr, (world.parties p).phase = .counted task attr (counts p)) →
        ∀ p, ∑ q, counts q p < 2 ^ 31
  | _ => True

/-- The counters of all processes are in their range. -/
def Ints (world : World n) : Prop := ∀ p, (world.parties p).Ints

theorem ints_initial (devices : Fin n → Device n) : (initial devices).Ints :=
  fun p => Party.ints_initial (devices p)

theorem Ints.step (ints : world.Ints) (tracked : world.Tracked) (inRange : world.InRange action)
    (taken : Step world action after) : after.Ints := by
  intro p
  refine (taken.moves p).ints (tracked.parties p) (ints p) ?_ ?_ ?_
  · rintro task kind peer rfl
    exact inRange
  · rintro wcs rfl
    exact inRange
  · rintro rfl _ _ remoteMsgs ready
    rcases taken with ⟨task, attr, counts, rounds, told, counted, execution, rfl⟩
    cases ready
    rw [exchangeCounts_sum execution p]
    refine ⟨?_, inRange counts (fun q => ⟨task q, attr q, counted q⟩) p⟩
    exact Finset.sum_nonneg fun q _ => ((ints q).counted _ _ _ (counted q) p).1

/-- In a run whose actions keep the counters in range they are. -/
theorem Reachable.ints_of {devices : Fin n → Device n} {permitted : World n → Action n → Prop}
    {Known : World n → Prop} (run : Reachable devices permitted world)
    (known : ∀ reached, Reachable devices permitted reached → Known reached)
    (inRange : ∀ before action after, Known before → Known after → permitted before action →
      Step before action after → before.InRange action) : world.Ints := by
  have tracked : ∀ reached, Reachable devices permitted reached →
      Known reached ∧ reached.Tracked := fun reached run => ⟨known reached run, run.tracked⟩
  apply run.invariant_of tracked (ints_initial devices)
  rintro before action after ⟨knownBefore, trackedBefore⟩ ⟨knownAfter, _⟩ ints permitted taken
  exact ints.step trackedBefore (inRange _ _ _ knownBefore knownAfter permitted taken) taken

theorem Reachable.ints {devices : Fin n → Device n} (run : Reachable devices InRange world) :
    world.Ints := by
  apply run.ints_of (fun _ _ => trivial)
  intro before action after _ _ inRange _
  exact inRange

/-- Fewer than `2 ^ 31` messages are addressed to a process in a superstep, and fewer than that many
operations of a process wait for the poll of their completion. -/
def Bounded (world : World n) : Action n → Prop
  | .post pid _ _ peer => (world.parties pid).unpolled.card + 1 < 2 ^ 31 ∧
      world.notified peer (world.parties pid).superstep + 1 < 2 ^ 31
  | _ => True

theorem Reachable.notified_lt {devices : Fin n → Device n} {permitted : World n → Action n → Prop}
    (run : Reachable devices permitted world)
    (bounded : ∀ world action, permitted world action → world.Bounded action) (p : Fin n)
    (superstep : ℕ) : world.notified p superstep < 2 ^ 31 := by
  revert p superstep
  apply run.invariant
  · intro p superstep
    have nothing : (initial devices).notified p superstep = 0 := by
      rw [notified_eq_sum]
      exact Finset.sum_eq_zero fun q _ => Multiset.countP_zero _
    rw [nothing]
    decide
  · intro before action after few permitted taken p superstep
    rcases taken.notified p superstep with same | ⟨q, task, kind, rfl, now, next⟩
    · exact same ▸ few p superstep
    · rw [next, ← now]
      exact (bounded _ _ permitted).2

theorem notifications_le_notified (world : World n) (q p : Fin n) (superstep : ℕ) :
    (world.parties q).notifications p superstep ≤ world.notified p superstep := by
  rw [notified_eq_sum]
  exact Finset.single_le_sum (fun r _ => Nat.zero_le ((world.parties r).notifications p superstep))
    (Finset.mem_univ q)

theorem inRange_post (tracked : world.Tracked) (level : world.Level) {pid peer : Fin n}
    {task : Task} {kind : OperationKind} (quiet : world.Quiet (.post pid task kind peer))
    (bounded : world.Bounded (.post pid task kind peer)) :
    world.InRange (.post pid task kind peer) := by
  have numMsgs := (tracked.parties pid).conserved.numMsgs
  have numMsgsSync := (tracked.parties pid).conserved.numMsgsSync peer
  have among := world.notifications_le_notified pid peer (world.parties pid).superstep
  rw [tracked.epoch_of_quiet quiet, ← level.notifications] at numMsgsSync
  rcases bounded with ⟨unpolled, notified⟩
  constructor
  · rw [numMsgs]
    exact_mod_cast unpolled
  · rw [numMsgsSync]
    exact_mod_cast Nat.lt_of_le_of_lt (Nat.succ_le_succ among) notified

/-- Notifications fit the ring that few of them are addressed to. -/
theorem inRange_poll (settled : after.Settled)
    (few : ∀ p superstep, after.notified p superstep < 2 ^ 31) {pid : Fin n}
    {wcs : List (Posted n)} (taken : Step world (.remoteProgress pid wcs) after) :
    world.InRange (.remoteProgress pid wcs) := by
  intro entry
  rcases settled.recvCounts_le pid entry with ⟨superstep, atMost⟩
  have itsFew := few pid superstep
  have recvCounts : (after.parties pid).verbs.recvCounts =
      ((world.parties pid).verbs.doRemoteProgress (wcs.map Posted.immData)).recvCounts := by
    rcases taken with ⟨rest, _, rfl⟩
    simp only [move, Function.update_self]
  rw [← recvCounts]
  omega

/-- The counters count the operations that are not complete and those that have not been announced.
In quiet runs a process is told how many notifications of the superstep are on their way to it. -/
theorem counters_conserved (devices : Fin n → Device n) (world : World n) :
    (Reachable devices InRange world → world.Ints ∧ ∀ p, (world.parties p).Conserved) ∧
    (Reachable devices (fun world action => world.Quiet action ∧ world.InRange action) world →
      ∀ exchange ∈ world.exchanges, ∀ p, exchange.remoteMsgs p = ∑ q, exchange.counts q p ∧
        ∑ q, exchange.counts q p =
          ∑ q, ((world.parties q).notifications p (exchange.superstep q) : Int)) ∧
    ∀ attrs, Reachable devices (fun world action => world.Uniform attrs action ∧
      world.InRange action) world →
        ∀ exchange ∈ world.exchanges, ∀ p q, exchange.superstep p = exchange.superstep q := by
  refine ⟨?_, ?_, ?_⟩
  · intro run
    exact ⟨run.ints, fun p => (run.tracked.parties p).conserved⟩
  · intro run exchange member p
    refine ⟨run.tracked.remoteMsgs exchange member p, ?_⟩
    apply Finset.sum_congr rfl
    intro q _
    have level := Reachable.level (run.mono fun _ _ both => both.1)
    rw [run.tracked.counts exchange member q p, level.notifications]
  · intro attrs run
    exact (Reachable.inLine (run.mono fun _ _ both => both.1)).together

/-- Counts that have been read and whose sums fit -/
theorem inRange_exchange {task : Fin n → Task} {attr : Fin n → SyncAttr}
    {counts : Fin n → Fin n → Int}
    (counted : ∀ p, (world.parties p).phase = .counted (task p) (attr p) (counts p))
    (fits : ∀ p, ∑ q, counts q p < 2 ^ 31) : world.InRange .exchange := by
  intro others isCounted p
  have same : others = counts := by
    funext q
    rcases isCounted q with ⟨itsTask, itsAttr, phase⟩
    exact (SyncPhase.counted.inj (phase.symm.trans (counted q))).2.2
  exact same ▸ fits p

/-- All processes can exchange counts whose sums fit. -/
theorem Reachable.exchange_fits {devices : Fin n → Device n}
    {permitted : World n → Action n → Prop} (run : Reachable devices permitted world)
    (task : Fin n → Task) (attr : Fin n → SyncAttr) (counts : Fin n → Fin n → Int)
    (fits : ∀ p, ∑ q, counts q p < 2 ^ 31)
    (counted : ∀ p, (world.parties p).phase = .counted (task p) (attr p) (counts p))
    (allowed : world.InRange .exchange → permitted world .exchange) :
    ∃ remoteMsgs, Reachable devices permitted { world with
      parties := fun p => (world.parties p).exchanged (task p) (attr p) (remoteMsgs p)
      exchanges := ⟨fun p => (world.parties p).epoch - 1, counts, remoteMsgs⟩ ::
        world.exchanges } :=
  run.exchange (allowed (inRange_exchange counted fits)) task attr counts counted

/-- Process 0 posts an operation to process 1, and both sync. -/
theorem counters_conserved_pair : ∃ world : World 2, world.Ints ∧
    (∀ p, (world.parties p).Conserved) ∧
    ∃ exchange ∈ world.exchanges, ∑ q, exchange.counts q 1 = 1 ∧
      ∑ q, exchange.counts q 1 =
        ∑ q, ((world.parties q).notifications 1 (exchange.superstep q) : Int) ∧
      ∀ p q, exchange.superstep p = exchange.superstep q := by
  let op : Posted 2 := (Party.initial (.generous 2)).operation 5 1
  have started : Reachable (fun _ => .generous 2) (fun world action => world.Quiet action ∧
      world.Uniform (fun _ => .default) action ∧ world.InRange action)
      (initial fun _ : Fin 2 => .generous 2) := Transition.Reachable.refl
  have posted := started.next (.post 0 5 .put 1)
    ⟨⟨Or.inl rfl, rfl⟩, trivial, by decide, by decide⟩ rfl
  have completed := posted.next (.complete 0 op) ⟨trivial, trivial, trivial⟩ ⟨0, rfl, rfl⟩
  have polled := completed.next (.localProgress 0 [op]) ⟨trivial, trivial, trivial⟩ ⟨0, rfl, rfl⟩
  have drained := drains polled (fun _ => 6) .default (fun _ _ _ => ⟨trivial, rfl, trivial⟩)
    (Fin.forall_fin_two.mpr ⟨rfl, rfl⟩) (Fin.forall_fin_two.mpr ⟨by decide, by decide⟩)
  have read := reads drained (fun _ _ => ⟨trivial, trivial, trivial⟩) fun _ => rfl
  let counts : Fin 2 → Fin 2 → Int :=
    fun q => if q = 0 then Function.update (fun _ => 0) 1 (0 + 1) else fun _ => 0
  rcases Reachable.exchange_fits read (fun _ => 6) (fun _ => .default) counts
    (Fin.forall_fin_two.mpr ⟨by decide, by decide⟩) (Fin.forall_fin_two.mpr ⟨rfl, rfl⟩)
    (fun inRange => ⟨trivial, trivial, inRange⟩) with ⟨remoteMsgs, run⟩
  have free := (counters_conserved _ _).1 (run.mono fun _ _ all => all.2.2)
  have quiet := (counters_conserved _ _).2.1 (run.mono fun _ _ all => ⟨all.1, all.2.2⟩) _
    List.mem_cons_self 1
  have uniform := (counters_conserved _ _).2.2 (fun _ => .default)
    (run.mono fun _ _ all => all.2) _ List.mem_cons_self
  have announced : ∑ q, counts q 1 = 1 := by decide
  exact ⟨_, free.1, free.2, _, List.mem_cons_self, announced, quiet.2, uniform⟩

/-- An operation that is posted while the sync request is active has the notification of a
superstep whose messages have been counted. -/
theorem not_counters_conserved : ∃ world : World 1, Reachable (fun _ => .generous 1) InRange world ∧
    ∃ exchange ∈ world.exchanges, ∑ q, exchange.counts q 0 ≠
      ∑ q, ((world.parties q).notifications 0 (exchange.superstep q) : Int) := by
  have started : Reachable (fun _ => .generous 1) InRange (initial fun _ : Fin 1 => .generous 1) :=
    Transition.Reachable.refl
  have drained := started.next (.drain 0 6 .default) trivial ⟨rfl, by decide, rfl⟩
  have counted := drained.next (.readCounts 0) trivial ⟨6, .default, rfl, rfl⟩
  rcases counted.exchange_fits (fun _ => 6) (fun _ => .default) (fun _ _ => 0)
    (Fin.forall_fin_one.mpr (by decide)) (Fin.forall_fin_one.mpr rfl) id with
    ⟨remoteMsgs, exchanged⟩
  have requested := exchanged.next (.request 0) trivial ⟨6, true, remoteMsgs 0, _, rfl, rfl, rfl⟩
  have small : (0 : Int) + 1 < 2 ^ 31 := by decide
  have posted := requested.next (.post 0 5 .put 0) ⟨small, small⟩ rfl
  refine ⟨_, posted, _, List.mem_cons_self, ?_⟩
  intro same
  rw [Finset.univ_unique, Finset.sum_singleton, Finset.sum_singleton] at same
  have zeroOne : (0 : Int) = 1 := same
  exact absurd zeroOne (by decide)

end World

end IBVerbs

end Talpf
