import Talpf.Library.Transition
import Talpf.MessageQueue.Resizes

/-!
# Resizes by all processes

In the runs of this file all processes resize together and sync with any
attributes.  A resize takes effect if every sync that finds one requested is in
the default mode, and gets lost otherwise.
-/

namespace Talpf

open Spmd

namespace MessageQueue

variable {n : ℕ}

/-- A queue pair is staged where it has a number. -/
theorem staged_of_qpNums {before after : IBVerbs n}
    (same : IBVerbs.qpNums after.stagedQps = IBVerbs.qpNums before.stagedQps) :
    after.Staged ↔ before.Staged := by
  have isSome : ∀ peer, (after.stagedQps peer).isSome = (before.stagedQps peer).isSome := by
    intro peer
    have numbers := congrArg Option.isSome (congrFun same peer)
    simpa [IBVerbs.qpNums] using numbers
  simp only [IBVerbs.Staged, isSome]

/-- A message queue and the numbers of the queue pairs that its last resize has staged. -/
structure Tracked (n : ℕ) where
  queue : MessageQueue n
  lastStaged : Option (Fin n → Option ℕ)

/-- What all processes do together. -/
inductive Event (n : ℕ) where
  | resize (calls : Fin n → Resize)
  | sync (attr : SyncAttr) (rounds : List (Fin n → Collective n))

/-- The resizes succeed at all processes, and a sync executes in the given rounds. -/
inductive Happens : (Fin n → Tracked n) → Event n → (Fin n → Tracked n) → Prop where
  | resize {before after : Fin n → Tracked n} {calls : Fin n → Resize}
      (succeeds : ∀ p, (before p).queue.resize (calls p) = ((after p).queue, some .success))
      (recorded : ∀ p, (after p).lastStaged =
        some (IBVerbs.qpNums (after p).queue.ibverbs.stagedQps)) :
      Happens before (.resize calls) after
  | sync {before after : Fin n → Tracked n} {attr : SyncAttr}
      {rounds : List (Fin n → Collective n)} {task : Fin n → Task}
      {result : Fin n → Except Exn Int}
      (execution : Executes (fun p => (before p).queue.superstep p (task p) attr) rounds
        (fun p => ((after p).queue, result p)))
      (kept : ∀ p, (after p).lastStaged = (before p).lastStaged) :
      Happens before (.sync attr rounds) after

namespace Tracked

def start (device : Fin n → Device n) (p : Fin n) : Tracked n := ⟨.initial (device p), none⟩

/-- A sync that finds a resize requested is in the default mode. -/
def Heeded (before : Fin n → Tracked n) : Event n → Prop
  | .resize _ => True
  | .sync attr _ => (∃ p, (before p).queue.resized = true) → attr.mode = .default

/-- The queue pairs of the last resize are connected, or they are staged and will be. -/
structure Faithful (state : Fin n → Tracked n) : Prop where
  quiet : ∀ p, (state p).queue.Quiet
  agreeCached : ∀ p q, (state p).queue.ibverbs.syncCached = (state q).queue.ibverbs.syncCached
  agreeResized : ∀ p q, (state p).queue.resized = (state q).queue.resized
  requested : ∀ p, (state p).queue.resized = true → (state p).queue.ibverbs.Staged ∧
    (state p).lastStaged = some (IBVerbs.qpNums (state p).queue.ibverbs.stagedQps)
  connected : ∀ p, (state p).queue.resized = false → (state p).lastStaged = none ∨
    (state p).lastStaged = some (IBVerbs.qpNums (state p).queue.ibverbs.connectedQps)

theorem faithful_start (device : Fin n → Device n) : Faithful (start device) where
  quiet p := (initial_spec (device p)).1
  agreeCached p q :=
    (initial_spec (device p)).2.2.1.trans (initial_spec (device q)).2.2.1.symm
  agreeResized _ _ := rfl
  requested _ isResized := by cases isResized
  connected _ _ := Or.inl rfl

variable {before after : Fin n → Tracked n}

theorem Faithful.resize (faithful : Faithful before) {calls : Fin n → Resize}
    (succeeds : ∀ p, (before p).queue.resize (calls p) = ((after p).queue, some .success))
    (recorded : ∀ p, (after p).lastStaged =
      some (IBVerbs.qpNums (after p).queue.ibverbs.stagedQps)) : Faithful after := by
  have attempted : ∀ p, Undisturbed (before p).queue (after p).queue ∧
      Attempted (before p).queue (after p).queue (some .success) := by
    intro p
    have spec := (before p).queue.resize_spec (calls p)
    rw [succeeds p] at spec
    exact ⟨spec.1, spec.2.resolve_right fun refused => refused.fails rfl⟩
  exact
    { quiet := fun p => ⟨(attempted p).1.sameEmpty.trans (faithful.quiet p).nothingAdded,
        (congrArg SyncRequest.isActive (attempted p).1.sameRequest).trans (faithful.quiet p).idle⟩
      agreeCached := fun p q => by
        rw [(attempted p).1.sameCached, (attempted q).1.sameCached, faithful.agreeCached p q]
      agreeResized := fun p q => (attempted p).2.resized.trans (attempted q).2.resized.symm
      requested := fun p _ => ⟨(attempted p).2.succeeds rfl, recorded p⟩
      connected := fun p notResized => by
        rw [(attempted p).2.resized] at notResized
        cases notResized }

/-- A sync of a faithful state either reconnects all processes, or fails, or has nothing to do. -/
theorem Faithful.sync_cases (faithful : Faithful before) {attr : SyncAttr} (task : Fin n → Task)
    (heeded : (∃ p, (before p).queue.resized = true) → attr.mode = .default) :
    ∃ (rounds : List (Fin n → Collective n)) (queue : Fin n → MessageQueue n)
      (result : Fin n → Except Exn Int),
      Executes (fun p => (before p).queue.superstep p (task p) attr) rounds
        (fun p => (queue p, result p)) ∧
      (((∀ p, (before p).queue.resized = true) ∧
          (∀ p, Collective.kinds p rounds = resizedKinds n ++
            if attr.barrier then [.ibarrier] else []) ∧
          ∀ p, Renewed (before p).queue (queue p)) ∨
        (∀ p, Unfinished (before p).queue (queue p)) ∨
        (∀ p, (before p).queue.resized = false) ∧
          ∀ p, Concluded attr (before p).queue (queue p)) := by
  by_cases resizes : ∃ p, (before p).queue.resized = true
  · rcases resizes with ⟨someone, isResized⟩
    have all : ∀ p, (before p).queue.resized = true := fun p =>
      (faithful.agreeResized p someone).trans isResized
    rcases superstep_executes_resized task faithful.quiet (heeded ⟨someone, isResized⟩)
      ⟨someone, isResized⟩ (fun p => (faithful.requested p (all p)).1) with
      ⟨rounds, after, roundKinds, execution, renewed⟩ | ⟨rounds, after, thrown, execution, stopped⟩
    · exact ⟨rounds, after, _, execution, Or.inl ⟨all, roundKinds, renewed⟩⟩
    · exact ⟨rounds, after, _, execution, Or.inr (Or.inl stopped)⟩
  · have none : ∀ p, (before p).queue.resized = false := fun p =>
      Bool.eq_false_iff.mpr fun isResized => resizes ⟨p, isResized⟩
    rcases superstep_executes_plain task faithful.quiet (fun _ => none) faithful.agreeCached with
      ⟨rounds, after, _, execution, concluded⟩
    exact ⟨rounds, after, _, execution, Or.inr (Or.inr ⟨none, concluded⟩)⟩

/-- What the step of a run is known to do. -/
theorem Faithful.sync {attr : SyncAttr} {rounds : List (Fin n → Collective n)}
    (faithful : Faithful before) (heeded : Heeded before (.sync attr rounds))
    (happens : Happens before (.sync attr rounds) after) :
    Faithful after ∧ ∀ p, (before p).queue.resized = true → (after p).queue.resized = false →
      IBVerbs.reconnectKinds <:+: Collective.kinds p rounds := by
  cases happens with
  | @sync _ _ _ task result execution kept =>
  cases n with
  | zero => exact ⟨⟨fun p => p.elim0, fun p => p.elim0, fun p => p.elim0, fun p => p.elim0,
      fun p => p.elim0⟩, fun p => p.elim0⟩
  | succ n =>
  rcases faithful.sync_cases task heeded with ⟨_, queue, _, expected, outcome⟩
  rcases execution.unique expected with ⟨rfl, same⟩
  have sameQueue : ∀ p, (after p).queue = queue p := fun p => congrArg Prod.fst (congrFun same p)
  simp only [← sameQueue] at outcome
  rcases outcome with ⟨all, roundKinds, renewed⟩ | stopped | ⟨none, concluded⟩
  · refine ⟨⟨fun p => (renewed p).quiet, fun p q => ?_, fun p q => ?_, fun p isResized => ?_,
      fun p _ => Or.inr ?_⟩, fun p _ _ => ?_⟩
    · exact (renewed p).cached.trans (renewed q).cached.symm
    · exact (renewed p).notResized.trans (renewed q).notResized.symm
    · rw [(renewed p).notResized] at isResized
      cases isResized
    · rw [kept p, (faithful.requested p (all p)).2, (renewed p).connected]
    · rw [roundKinds p]
      exact ⟨[.iallreduceSum], List.replicate (n + 1) .allreduceSum ++
        if attr.barrier then [.ibarrier] else [], by simp [resizedKinds]⟩
  · refine ⟨⟨fun p => (stopped p).quiet, fun p q => ?_, fun p q => ?_, fun p isResized => ?_,
      fun p notResized => ?_⟩, fun p isResized notResized => ?_⟩
    · rw [(stopped p).sameCached, (stopped q).sameCached, faithful.agreeCached p q]
    · rw [(stopped p).sameResized, (stopped q).sameResized, faithful.agreeResized p q]
    · rw [(stopped p).sameResized] at isResized
      rw [staged_of_qpNums (stopped p).sameStaged, kept p, (stopped p).sameStaged]
      exact faithful.requested p isResized
    · rw [(stopped p).sameResized] at notResized
      rw [kept p, (stopped p).sameConnected]
      exact faithful.connected p notResized
    · rw [(stopped p).sameResized, isResized] at notResized
      cases notResized
  · refine ⟨⟨fun p => (concluded p).quiet, fun p q => ?_, fun p q => ?_, fun p isResized => ?_,
      fun p _ => ?_⟩, fun p isResized _ => ?_⟩
    · rw [(concluded p).cached, (concluded q).cached, faithful.agreeCached p q]
    · exact (concluded p).notResized.trans (concluded q).notResized.symm
    · rw [(concluded p).notResized] at isResized
      cases isResized
    · rw [kept p, (concluded p).sameConnected]
      exact faithful.connected p (none p)
    · rw [none p] at isResized
      cases isResized

theorem faithful_of_reachable {device : Fin n → Device n} {state : Fin n → Tracked n}
    (run : Transition.Reachable Happens Heeded (start device) state) : Faithful state := by
  apply run.invariant (faithful_start device)
  intro before event after faithful heeded happens
  cases event with
  | resize calls =>
      cases happens with
      | resize succeeds recorded => exact faithful.resize succeeds recorded
  | sync attr rounds => exact (faithful.sync heeded happens).1

/-- A step that does not lose a resize: the request is only withdrawn by a sync that reconnects,
and afterwards the queue pairs of the last resize are connected or the request still stands. -/
structure NotLost (before : Fin n → Tracked n) (event : Event n) (after : Fin n → Tracked n) :
    Prop where
  withdrawn : ∀ p, (before p).queue.resized = true → (after p).queue.resized = false →
    ∃ attr rounds, event = .sync attr rounds ∧
      IBVerbs.reconnectKinds <:+: Collective.kinds p rounds
  connected : ∀ p, (after p).queue.resized = true ∨ (after p).lastStaged = none ∨
    (after p).lastStaged = some (IBVerbs.qpNums (after p).queue.ibverbs.connectedQps)

/-- If every sync that finds a resize requested is in the default mode, then no resize is lost. -/
theorem resize_not_lost {device : Fin n → Device n} {before after : Fin n → Tracked n}
    {event : Event n} (run : Transition.Reachable Happens Heeded (start device) before)
    (heeded : Heeded before event) (happens : Happens before event after) :
    NotLost before event after := by
  have faithful := faithful_of_reachable run
  have reached := faithful_of_reachable (run.tail heeded happens)
  constructor
  · intro p isResized notResized
    cases event with
    | resize calls =>
        cases happens with
        | resize succeeds recorded =>
            have spec := ((before p).queue.resize_spec (calls p)).2
            rw [succeeds p] at spec
            cases spec with
            | inl attempted =>
                rw [attempted.resized] at notResized
                cases notResized
            | inr refused => exact absurd rfl refused.fails
    | sync attr rounds =>
        exact ⟨attr, rounds, rfl, (faithful.sync heeded happens).2 p isResized notResized⟩
  · intro p
    cases isResized : (after p).queue.resized with
    | true => exact Or.inl rfl
    | false => exact Or.inr (reached.connected p isResized)

/-- The state after all processes have resized. -/
def resized (state : Fin n → Tracked n) (calls : Fin n → Resize) (p : Fin n) : Tracked n :=
  ⟨((state p).queue.resize (calls p)).1,
    some (IBVerbs.qpNums ((state p).queue.resize (calls p)).1.ibverbs.stagedQps)⟩

theorem happens_resize {state : Fin n → Tracked n} {calls : Fin n → Resize}
    (succeeds : ∀ p, ((state p).queue.resize (calls p)).2 = some .success) :
    Happens state (.resize calls) (resized state calls) :=
  .resize (fun p => Prod.ext rfl (succeeds p)) fun _ => rfl

/-- The start of a run of one process. -/
def alone : Fin 1 → Tracked 1 := start fun _ => .generous 1

theorem happens_resize_alone :
    Happens alone (.resize fun _ => .mesgQueue 4) (resized alone fun _ => .mesgQueue 4) :=
  happens_resize (by decide)

theorem reachable_resized_alone :
    Transition.Reachable Happens Heeded alone (resized alone fun _ => .mesgQueue 4) := by
  have heeded : Heeded alone (.resize fun _ => .mesgQueue 4) := trivial
  exact Transition.Reachable.refl.tail heeded happens_resize_alone

theorem resize_not_lost_default :
    ∃ (after : Fin 1 → Tracked 1) (rounds : List (Fin 1 → Collective 1)),
      Transition.Reachable Happens Heeded alone (resized alone fun _ => .mesgQueue 4) ∧
      (resized alone (fun _ => .mesgQueue 4) 0).queue.resized = true ∧
      Happens (resized alone fun _ => .mesgQueue 4) (.sync .default rounds) after ∧
      NotLost (resized alone fun _ => .mesgQueue 4) (.sync .default rounds) after := by
  have heeded : (∃ p, (resized alone (fun _ => .mesgQueue 4) p).queue.resized = true) →
      SyncAttr.default.mode = .default := fun _ => by decide
  rcases (faithful_of_reachable reachable_resized_alone).sync_cases (fun _ => 0) heeded with
    ⟨rounds, queue, result, execution, _⟩
  have happens : Happens (resized alone fun _ => .mesgQueue 4) (.sync .default rounds)
      fun p => ⟨queue p, (resized alone (fun _ => .mesgQueue 4) p).lastStaged⟩ :=
    .sync execution fun _ => rfl
  exact ⟨_, rounds, reachable_resized_alone, by decide, happens,
    resize_not_lost reachable_resized_alone heeded happens⟩

/-- A sync in the cached mode forgets a resize. -/
theorem cached_sync_loses_resize :
    ∃ (after : Fin 1 → Tracked 1) (rounds : List (Fin 1 → Collective 1)),
      Transition.Reachable Happens (fun _ _ => True) alone
        (resized alone fun _ => .mesgQueue 4) ∧
      Happens (resized alone fun _ => .mesgQueue 4) (.sync .cached rounds) after ∧
      (resized alone (fun _ => .mesgQueue 4) 0).queue.resized = true ∧
      (after 0).queue.resized = false ∧ Collective.kinds 0 rounds = [.allreduceSum] ∧
      ¬(after 0).lastStaged = some (IBVerbs.qpNums (after 0).queue.ibverbs.connectedQps) ∧
      ¬NotLost (resized alone fun _ => .mesgQueue 4) (.sync .cached rounds) after := by
  have run : Transition.Reachable Happens (fun _ _ => True) alone
      (resized alone fun _ => .mesgQueue 4) :=
    reachable_resized_alone.mono fun _ _ _ => trivial
  have faithful := faithful_of_reachable reachable_resized_alone
  have noVote : SyncAttr.cached.mode = .default →
      ∀ p, (resized alone (fun _ => .mesgQueue 4) p).queue.resized = false := by decide
  rcases superstep_executes_plain (fun _ => 0) faithful.quiet noVote
    faithful.agreeCached with ⟨rounds, queue, roundKinds, execution, concluded⟩
  have happens : Happens (resized alone fun _ => .mesgQueue 4) (.sync .cached rounds)
      fun p => ⟨queue p, (resized alone (fun _ => .mesgQueue 4) p).lastStaged⟩ :=
    .sync execution fun _ => rfl
  have dropped : ¬(resized alone (fun _ => .mesgQueue 4) 0).lastStaged =
      some (IBVerbs.qpNums (queue 0).ibverbs.connectedQps) := by
    rw [(concluded 0).sameConnected]
    decide
  refine ⟨_, rounds, run, happens, by decide, (concluded 0).notResized, roundKinds 0, dropped, ?_⟩
  intro notLost
  rcases notLost.connected 0 with isResized | never | connected
  · rw [(concluded 0).notResized] at isResized
    cases isResized
  · cases never
  · exact dropped connected

end Tracked

end MessageQueue

end Talpf
