import Talpf.IBVerbs.Counters

/-!
# Syncs of all processes

Processes that enter a sync together get their requests accepted together, whatever
else they do.  What happens from the wait for local completion to the request is
one action of each process after the other, apart from the collective exchange.
-/

namespace Talpf

namespace IBVerbs

variable {n : ℕ}

namespace Party

variable {party after last : Party n}

/-- What the sync of a process leaves alone until its request is looked at. -/
structure Keeps (party after : Party n) : Prop where
  superstep : after.superstep = party.superstep
  log : after.log = party.log
  outstanding : after.outstanding = party.outstanding
  completed : after.completed = party.completed
  numMsgs : after.verbs.numMsgs = party.verbs.numMsgs
  syncCounter : after.verbs.syncCounter = party.verbs.syncCounter
  secondPhase : after.verbs.syncRequest.secondPhase = party.verbs.syncRequest.secondPhase

theorem Keeps.trans (first : party.Keeps after) (second : after.Keeps last) :
    party.Keeps last where
  superstep := second.superstep.trans first.superstep
  log := second.log.trans first.log
  outstanding := second.outstanding.trans first.outstanding
  completed := second.completed.trans first.completed
  numMsgs := second.numMsgs.trans first.numMsgs
  syncCounter := second.syncCounter.trans first.syncCounter
  secondPhase := second.secondPhase.trans first.secondPhase

/-- The sync has to exchange the counts. -/
def Counting (party : Party n) (attr : SyncAttr) : Prop :=
  attr.mode = .default ∨ attr.mode = .cached ∧ party.verbs.syncCached = false

/-- The counts are read, and the next is the exchange or the request. -/
structure Counted (party : Party n) (task : Task) (attr : SyncAttr) (after : Party n) :
    Prop where
  keeps : party.Keeps after
  isActive : after.verbs.syncRequest.isActive = party.verbs.syncRequest.isActive
  counted : party.Counting attr → after.phase = .counted task attr party.verbs.numMsgsSync ∧
    (attr.mode = .cached → after.verbs.syncCached = true)
  ready : ¬party.Counting attr → (∃ remoteMsgs, after.phase = .ready task attr.barrier remoteMsgs) ∧
    after.verbs.syncCached = party.verbs.syncCached

theorem counted_readCounts (party : Party n) (task : Task) (attr : SyncAttr) :
    party.Counted task attr (party.readCounts task attr) := by
  rw [readCounts]
  cases mode : attr.mode with
  | cached =>
      dsimp only
      split
      next already =>
        refine ⟨⟨rfl, rfl, rfl, rfl, rfl, rfl, rfl⟩, rfl, ?_, fun _ => ⟨⟨_, rfl⟩, rfl⟩⟩
        rintro (isDefault | ⟨_, fresh⟩)
        · cases mode.symm.trans isDefault
        · cases fresh.symm.trans already
      next fresh =>
        refine ⟨⟨rfl, rfl, rfl, rfl, rfl, rfl, rfl⟩, rfl, fun _ => ⟨rfl, fun _ => rfl⟩, ?_⟩
        intro skips
        exact absurd (Or.inr ⟨mode, Bool.not_eq_true _ ▸ fresh⟩) skips
  | default =>
      refine ⟨⟨rfl, rfl, rfl, rfl, rfl, rfl, rfl⟩, rfl, fun _ => ⟨rfl, ?_⟩, ?_⟩
      · intro isCached
        cases mode.symm.trans isCached
      · intro skips
        exact absurd (Or.inl mode) skips
  | msg =>
      refine ⟨⟨rfl, rfl, rfl, rfl, rfl, rfl, rfl⟩, rfl, ?_, fun _ => ⟨⟨_, rfl⟩, rfl⟩⟩
      rintro (isDefault | ⟨isCached, _⟩)
      · cases mode.symm.trans isDefault
      · cases mode.symm.trans isCached
  | unknown =>
      refine ⟨⟨rfl, rfl, rfl, rfl, rfl, rfl, rfl⟩, rfl, ?_, fun _ => ⟨⟨_, rfl⟩, rfl⟩⟩
      rintro (isDefault | ⟨isCached, _⟩)
      · cases mode.symm.trans isDefault
      · cases mode.symm.trans isCached

/-- Whether the number of messages is cached once the counts have been exchanged -/
theorem Counted.syncCached {task : Task} {attr : SyncAttr} (counts : party.Counted task attr after)
    (counting : party.Counting attr) (remoteMsgs : Int) :
    (after.exchanged task attr remoteMsgs).verbs.syncCached =
      cachedAfter attr.mode party.verbs.syncCached := by
  show (if attr.mode = .default then false else after.verbs.syncCached) = _
  rcases counting with isDefault | ⟨isCached, fresh⟩
  · rw [isDefault]
    rfl
  · rw [(counts.counted (Or.inr ⟨isCached, fresh⟩)).2 isCached, isCached]
    rfl

/-- The request of a sync is accepted. -/
structure Asks (party : Party n) (attr : SyncAttr) (after : Party n) : Prop where
  keeps : party.Keeps after
  idle : after.phase = .idle
  isActive : after.verbs.syncRequest.isActive = true
  withBarrier : after.verbs.syncRequest.withBarrier = attr.barrier
  syncCached : after.verbs.syncCached = cachedAfter attr.mode party.verbs.syncCached

/-- The request is handed to the polling task. -/
def requested (party : Party n) (task : Task) (barrier : Bool) (remoteMsgs : Int) : Party n :=
  { party with
    verbs := { party.verbs with
      syncRequest := { party.verbs.syncRequest with
        withBarrier := barrier
        remoteMsgs := remoteMsgs
        task := some task
        isActive := true } }
    events := eventsIncrease party.events task
    phase := .idle }

theorem request_free (task : Task) (barrier : Bool) (remoteMsgs : Int)
    (inactive : party.verbs.syncRequest.isActive = false) :
    party.request task barrier remoteMsgs = some (party.requested task barrier remoteMsgs) := by
  have free : ¬party.verbs.syncRequest.isActive = true := by
    rw [inactive]
    exact Bool.false_ne_true
  rw [request, requestSync, if_neg free]
  rfl

/-- All operations of the process are complete, and their completions are polled. -/
def atRest (party : Party n) (events : Task → Int) : Party n :=
  { party with
    verbs := { party.verbs with numMsgs := 0 }
    events := events
    outstanding := 0
    completed := 0 }

end Party

namespace World

variable {permitted : World n → Action n → Prop} {start world : World n}

/-- Each process goes on by itself. -/
theorem each (run : Transition.Reachable Step permitted start world)
    (party : Fin n → Party n) (travelling : Fin n → Multiset (Posted n))
    (next : ∀ (parties : Fin n → Party n) (others : Fin n → Multiset (Posted n)) p,
      parties p = world.parties p → others p = world.travelling p →
        (∀ q, parties q = world.parties q ∨ parties q = party q) →
          Transition.Reachable Step permitted
            { world with parties := parties, travelling := others }
            { world with
              parties := Function.update parties p (party p)
              travelling := Function.update others p (travelling p) }) :
    Transition.Reachable Step permitted start
      { world with parties := party, travelling := travelling } := by
  let stage : List (Fin n) → World n := fun done => { world with
    parties := fun q => if q ∈ done then party q else world.parties q
    travelling := fun q => if q ∈ done then travelling q else world.travelling q }
  have all : { world with parties := party, travelling := travelling } =
      stage (List.finRange n) := by
    simp [stage]
  have started : Transition.Reachable Step permitted start (stage []) := by
    simpa [stage] using run
  have extended : ∀ {Value : Type} (fresh old : Fin n → Value) (done : List (Fin n)) p,
      (fun q => if q ∈ p :: done then fresh q else old q) =
        Function.update (fun q => if q ∈ done then fresh q else old q) p (fresh p) := by
    intro Value fresh old done p
    funext q
    rw [Function.update_apply]
    by_cases here : q = p
    · simp [here]
    · simp [here]
  rw [all]
  apply Transition.Reachable.each stage started (List.nodup_finRange n)
  intro done p fresh
  simp only [stage, extended]
  apply next
  · exact if_neg fresh
  · exact if_neg fresh
  · intro q
    by_cases already : q ∈ done
    · exact Or.inr (if_pos already)
    · exact Or.inl (if_neg already)

/-- Each process takes one step of its own, and nothing arrives. -/
theorem each_still (run : Transition.Reachable Step permitted start world)
    (action : Fin n → Action n) (party : Fin n → Party n)
    (next : ∀ (reached : World n) p, reached.parties p = world.parties p →
      (∀ q, reached.parties q = world.parties q ∨ reached.parties q = party q) →
        permitted reached (action p) ∧ Step reached (action p) (reached.move p (party p))) :
    Transition.Reachable Step permitted start { world with parties := party } := by
  apply each run party world.travelling
  intro parties others p same still among
  rw [← still, Function.update_eq_self]
  rcases next { world with parties := parties, travelling := others } p same among with
    ⟨allowed, taken⟩
  exact .tail .refl allowed taken

/-- All processes begin a sync. -/
theorem drains (run : Transition.Reachable Step permitted start world) (task : Fin n → Task)
    (attr : SyncAttr)
    (allowed : ∀ (reached : World n) p, reached.parties p = world.parties p →
      permitted reached (.drain p (task p) attr))
    (idle : ∀ p, (world.parties p).phase = .idle)
    (complete : ∀ p, ¬(world.parties p).verbs.numMsgs > 0) :
    Transition.Reachable Step permitted start { world with
      parties := fun p => { world.parties p with phase := .drained (task p) attr } } := by
  apply each_still run fun p => .drain p (task p) attr
  intro reached p same _
  refine ⟨allowed reached p same, ?_, ?_, ?_⟩
  · rw [same]
    exact idle p
  · rw [same]
    exact complete p
  · rw [same]

/-- All processes read their counts. -/
theorem reads (run : Transition.Reachable Step permitted start world) {task : Fin n → Task}
    {attr : SyncAttr} (allowed : ∀ reached p, permitted reached (.readCounts p))
    (drained : ∀ p, (world.parties p).phase = .drained (task p) attr) :
    Transition.Reachable Step permitted start { world with
      parties := fun p => (world.parties p).readCounts (task p) attr } := by
  apply each_still run .readCounts
  intro reached p same _
  exact ⟨allowed reached p, task p, attr, same ▸ drained p, by rw [same]⟩

/-- What happens within a sync -/
def Inner : Action n → Prop
  | .post .. | .drain .. | .processSyncRequest .. => False
  | .complete .. | .localProgress .. | .remoteProgress .. | .readCounts _ | .exchange
  | .request _ => True

/-- The operations of a process are completed one after the other. -/
theorem completes (world : World n) (p : Fin n) (completed : Multiset (Posted n)) :
    ∀ outstanding, Transition.Reachable Step (fun _ => Inner)
      (world.move p { world.parties p with outstanding := outstanding, completed := completed })
      (world.move p { world.parties p with
        outstanding := 0
        completed := outstanding + completed }) := by
  intro outstanding
  induction outstanding using Multiset.induction generalizing completed with
  | empty =>
      rw [Multiset.zero_add]
      exact .refl
  | cons op rest ih =>
      have inner : Inner (.complete p op) := trivial
      have moved : ∀ party, (world.move p party).parties p = party :=
        fun _ => Function.update_self ..
      have again : ∀ first second, (world.move p first).move p second = world.move p second :=
        fun _ _ => congrArg (fun parties => { world with parties := parties })
          (Function.update_idem ..)
      have completes : Step
          (world.move p { world.parties p with
            outstanding := op ::ₘ rest
            completed := completed }) (.complete p op)
          (world.move p { world.parties p with
            outstanding := rest
            completed := op ::ₘ completed }) :=
        ⟨rest, by rw [moved], by rw [again, moved]⟩
      have more := ih (op ::ₘ completed)
      rw [Multiset.add_cons, ← Multiset.cons_add] at more
      have one : Transition.Reachable Step (fun _ => Inner) _ _ := .tail .refl inner completes
      exact one.trans more

/-- The operations of a process are completed, and the completions are polled. -/
theorem exists_rested (world : World n) (p : Fin n)
    (conserved : (world.parties p).verbs.numMsgs = (world.parties p).unpolled.card) :
    ∃ events, ∀ reached : World n, reached.parties p = world.parties p →
      Transition.Reachable Step (fun _ => Inner) reached
        (reached.move p ((world.parties p).atRest events)) := by
  let all := (world.parties p).unpolled
  let complete : Party n := { world.parties p with outstanding := 0, completed := all }
  refine ⟨(complete.localProgress all.toList 0).events, fun reached same => ?_⟩
  have start : reached.move p (world.parties p) = reached := by
    rw [← same]
    exact congrArg (fun parties => { reached with parties := parties }) (Function.update_eq_self ..)
  have completed : Transition.Reachable Step (fun _ => Inner)
      (reached.move p (world.parties p)) (reached.move p complete) := by
    have run := completes reached p (world.parties p).completed (world.parties p).outstanding
    rw [same] at run
    exact run
  have moved : (reached.move p complete).parties p = complete := Function.update_self ..
  have rests : complete.localProgress all.toList 0 =
      (world.parties p).atRest (complete.localProgress all.toList 0).events := by
    have nothing : (world.parties p).verbs.numMsgs - all.toList.length = 0 := by
      rw [conserved, Multiset.length_toList, Int.sub_self]
    rw [Party.atRest, ← nothing]
    rfl
  have inner : Inner (.localProgress p all.toList) := trivial
  have polls : Step (reached.move p complete) (.localProgress p all.toList)
      (reached.move p (complete.localProgress all.toList 0)) := by
    refine ⟨0, ?_, ?_⟩
    · rw [moved, Multiset.coe_toList, Multiset.add_zero]
    · rw [moved]
      exact congrArg (fun parties => { reached with parties := parties })
        (Function.update_idem ..).symm
  rw [start] at completed
  rw [← rests]
  exact completed.tail inner polls

/-- All operations are completed, and the completions are polled. -/
theorem exists_completed
    (conserved : ∀ p, (world.parties p).verbs.numMsgs = (world.parties p).unpolled.card) :
    ∃ events : Fin n → Task → Int, Transition.Reachable Step (fun _ => Inner) world { world with
      parties := fun p => (world.parties p).atRest (events p) } := by
  choose events rests using fun p => exists_rested world p (conserved p)
  refine ⟨events, ?_⟩
  apply each .refl _ world.travelling
  intro parties others p same still _
  rw [← still, Function.update_eq_self]
  exact rests p { world with parties := parties, travelling := others } same

/-- All processes find their numbers of messages. -/
theorem exists_ready {task : Fin n → Task} {attr : SyncAttr}
    (drained : ∀ p, (world.parties p).phase = .drained (task p) attr)
    (agree : ∀ p q, (world.parties p).verbs.syncCached = (world.parties q).verbs.syncCached) :
    ∃ after, Transition.Reachable Step (fun _ => Inner) world after ∧
      ∀ p, (world.parties p).Keeps (after.parties p) ∧
        (after.parties p).verbs.syncRequest.isActive =
          (world.parties p).verbs.syncRequest.isActive ∧
        (∃ remoteMsgs, (after.parties p).phase = .ready (task p) attr.barrier remoteMsgs) ∧
        (after.parties p).verbs.syncCached =
          cachedAfter attr.mode (world.parties p).verbs.syncCached := by
  have started : Transition.Reachable Step (fun _ => Inner) world world := .refl
  have read := reads started (fun _ _ => trivial) drained
  have counts := fun p => (world.parties p).counted_readCounts (task p) attr
  by_cases counting : ∀ p, (world.parties p).Counting attr
  · rcases exchangeCounts_executes (fun p => (world.parties p).verbs.numMsgsSync)
      (List.finRange n) fun _ => 0 with ⟨rounds, _, execution⟩
    have exchanges : Step { world with
        parties := fun p => (world.parties p).readCounts (task p) attr } .exchange _ :=
      ⟨task, fun _ => attr, _, rounds, _, fun p => ((counts p).counted (counting p)).1, execution,
        rfl⟩
    have inner : Inner (.exchange : Action n) := trivial
    refine ⟨_, read.tail inner exchanges, fun p => ?_⟩
    exact ⟨(counts p).keeps.trans ⟨rfl, rfl, rfl, rfl, rfl, rfl, rfl⟩, (counts p).isActive,
      ⟨_, rfl⟩, (counts p).syncCached (counting p) _⟩
  · have skips : ∀ p, ¬(world.parties p).Counting attr := by
      intro p itself
      apply counting
      intro q
      rw [Party.Counting, agree q p]
      exact itself
    refine ⟨_, read, fun p => ⟨(counts p).keeps, (counts p).isActive,
      ((counts p).ready (skips p)).1, ((counts p).ready (skips p)).2.trans ?_⟩⟩
    cases mode : attr.mode with
    | default => exact absurd (Or.inl mode) (skips p)
    | cached =>
        rw [cachedAfter, ← Bool.not_eq_false]
        exact fun fresh => skips p (Or.inr ⟨mode, fresh⟩)
    | msg => rfl
    | unknown => rfl

/-- All requests are made. -/
theorem exists_requested {task : Fin n → Task} {attr : SyncAttr}
    (ready : ∀ p, ∃ remoteMsgs,
      (world.parties p).phase = .ready (task p) attr.barrier remoteMsgs)
    (inactive : ∀ p, (world.parties p).verbs.syncRequest.isActive = false) :
    ∃ after, Transition.Reachable Step (fun _ => Inner) world after ∧
      ∀ p, (world.parties p).Keeps (after.parties p) ∧ (after.parties p).phase = .idle ∧
        (after.parties p).verbs.syncRequest.isActive = true ∧
        (after.parties p).verbs.syncRequest.withBarrier = attr.barrier ∧
        (after.parties p).verbs.syncCached = (world.parties p).verbs.syncCached := by
  choose remoteMsgs isReady using ready
  let asking : Fin n → Party n := fun p =>
    (world.parties p).requested (task p) attr.barrier (remoteMsgs p)
  refine ⟨{ world with parties := asking }, ?_, fun p =>
    ⟨⟨rfl, rfl, rfl, rfl, rfl, rfl, rfl⟩, rfl, rfl, rfl, rfl⟩⟩
  apply each_still .refl .request
  intro reached p same _
  exact ⟨trivial, task p, attr.barrier, remoteMsgs p, asking p, same ▸ isReady p,
    same ▸ Party.request_free (task p) attr.barrier (remoteMsgs p) (inactive p), rfl⟩

/-- All notifications that are on their way arrive. -/
theorem exists_polled (world : World n) :
    ∃ after, Transition.Reachable Step (fun _ => Inner) world after ∧
      (∀ p, after.travelling p = 0) ∧ ∀ p, ∃ recvCounts, after.parties p = { world.parties p with
        verbs := { (world.parties p).verbs with recvCounts := recvCounts } } := by
  let polled : Fin n → Party n := fun p => { world.parties p with
    verbs := (world.parties p).verbs.doRemoteProgress
      ((world.travelling p).toList.map Posted.immData) }
  refine ⟨{ world with parties := polled, travelling := fun _ => 0 }, ?_, fun _ => rfl, ?_⟩
  · apply each .refl
    intro parties others p same still _
    have inner : Inner (.remoteProgress p (world.travelling p).toList) := trivial
    refine .tail .refl inner ⟨0, ?_, ?_⟩
    · rw [Multiset.coe_toList, Multiset.add_zero]
      exact still
    · simp only [polled, move, same]
  · intro p
    refine ⟨(polled p).verbs.recvCounts, ?_⟩
    show polled p = _
    rw [← Party.doRemoteProgress_eq]

/-- Processes that have begun a sync get their requests accepted, and all notifications arrive. -/
theorem exists_asks {task : Fin n → Task} {attr : SyncAttr}
    (drained : ∀ p, (world.parties p).phase = .drained (task p) attr)
    (inactive : ∀ p, (world.parties p).verbs.syncRequest.isActive = false)
    (agree : ∀ p q, (world.parties p).verbs.syncCached = (world.parties q).verbs.syncCached) :
    ∃ after, Transition.Reachable Step (fun _ => Inner) world after ∧
      (∀ p, after.travelling p = 0) ∧ ∀ p, (world.parties p).Asks attr (after.parties p) := by
  rcases exists_ready drained agree with ⟨counted, counts, isReady⟩
  rcases exists_requested (fun p => (isReady p).2.2.1)
    (fun p => (isReady p).2.1.trans (inactive p)) with ⟨asking, asks, isAsking⟩
  rcases exists_polled asking with ⟨after, polls, nothing, parties⟩
  refine ⟨after, (counts.trans asks).trans polls, nothing, fun p => ?_⟩
  rcases isAsking p with ⟨keeps, idle, isActive, withBarrier, syncCached⟩
  rcases parties p with ⟨recvCounts, same⟩
  rw [same]
  exact ⟨((isReady p).1.trans keeps).trans ⟨rfl, rfl, rfl, rfl, rfl, rfl, rfl⟩, idle, isActive,
    withBarrier, syncCached.trans (isReady p).2.2.2⟩

/-- Processes whose operations are complete enter a sync and get its messages. -/
theorem exists_arrived (run : Transition.Reachable Step permitted start world)
    (task : Fin n → Task) (attr : SyncAttr)
    (begins : ∀ (reached : World n) p, reached.parties p = world.parties p →
      permitted reached (.drain p (task p) attr))
    (inner : ∀ reached action, Inner action → permitted reached action)
    (idle : ∀ p, (world.parties p).phase = .idle)
    (complete : ∀ p, ¬(world.parties p).verbs.numMsgs > 0)
    (inactive : ∀ p, (world.parties p).verbs.syncRequest.isActive = false)
    (agree : ∀ p q, (world.parties p).verbs.syncCached = (world.parties q).verbs.syncCached) :
    ∃ after, Transition.Reachable Step permitted start after ∧ (∀ p, after.travelling p = 0) ∧
      ∀ p, (world.parties p).Asks attr (after.parties p) := by
  let drained : World n := { world with
    parties := fun p => { world.parties p with phase := .drained (task p) attr } }
  have phase : ∀ p, (drained.parties p).phase = .drained (task p) attr := fun _ => rfl
  rcases exists_asks phase inactive agree with ⟨after, asks, nothing, asked⟩
  refine ⟨after, (drains run task attr begins idle complete).trans (asks.mono inner), nothing, ?_⟩
  intro p
  have begun : (world.parties p).Keeps (drained.parties p) := ⟨rfl, rfl, rfl, rfl, rfl, rfl, rfl⟩
  exact ⟨begun.trans (asked p).keeps, (asked p).idle, (asked p).isActive, (asked p).withBarrier,
    (asked p).syncCached⟩

end World

end IBVerbs

end Talpf
