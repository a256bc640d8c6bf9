import Talpf.Library.Transition
import Talpf.MessageQueue.ResizeRuns

/-!
# Resizes by some processes

In the runs of this file each process resizes on its own account, with failures
at any queue pair, and all processes sync in the default mode.  A reconnection
finds all queue pairs staged if no process has stayed behind: each one has
attempted a resize since the last reconnection and its last attempt has
succeeded.  The converse holds as long as what fails is the creation of queue
pairs, and not of the shared pointers to them.
-/

namespace Talpf

open Spmd

namespace MessageQueue

variable {n : ℕ}

/-- A message queue and the outcome of the last resize since the last completed sync that got to
stage queue pairs. -/
structure Recorded (n : ℕ) where
  queue : MessageQueue n
  attempt : Option Bool

namespace Recorded

def start (device : Fin n → Device n) (p : Fin n) : Recorded n := ⟨.initial (device p), none⟩

/-- Resize and record the outcome if the device was asked for queue pairs. -/
def resize (state : Recorded n) (call : Resize) : Recorded n :=
  let (queue, code) := state.queue.resize call
  { queue := queue
    attempt :=
      if queue.ibverbs.device.createQpCalls = state.queue.ibverbs.device.createQpCalls then
        state.attempt
      else some (code = some .success) }

/-- The record after a sync: one that throws leaves the attempts to the next one. -/
def attemptAfter (attempt : Option Bool) : Except Exn Int → Option Bool
  | .ok _ => none
  | .error _ => attempt

inductive Event (n : ℕ) where
  | resize (p : Fin n) (call : Resize)
  | sync (attr : SyncAttr) (rounds : List (Fin n → Collective n))

inductive Happens : (Fin n → Recorded n) → Event n → (Fin n → Recorded n) → Prop where
  | resize (state : Fin n → Recorded n) (p : Fin n) (call : Resize) :
      Happens state (.resize p call) (Function.update state p ((state p).resize call))
  | sync {before after : Fin n → Recorded n} {attr : SyncAttr}
      {rounds : List (Fin n → Collective n)} {task : Fin n → Task}
      {result : Fin n → Except Exn Int} (mode : attr.mode = .default)
      (execution : Executes (fun p => (before p).queue.superstep p (task p) attr) rounds
        (fun p => ((after p).queue, result p)))
      (recorded : ∀ p, (after p).attempt = attemptAfter (before p).attempt (result p)) :
      Happens before (.sync attr rounds) after

/-- If some process has attempted to resize, then the last attempts of all have succeeded. -/
def Complete (state : Fin n → Recorded n) : Prop :=
  (∃ p, (state p).attempt ≠ none) → ∀ p, (state p).attempt = some true

/-- Resizes are free; a sync waits until no process stays behind. -/
def Together (state : Fin n → Recorded n) : Event n → Prop
  | .resize _ _ => True
  | .sync _ _ => Complete state

/-- What the record of one process says about its message queue. -/
structure Matches (device : Device n) (state : Recorded n) : Prop where
  quiet : state.queue.Quiet
  notCached : state.queue.ibverbs.syncCached = false
  sameBlocks : state.queue.ibverbs.device.controlBlock = device.controlBlock
  untried : state.attempt = none →
    state.queue.resized = false ∧ state.queue.ibverbs.stagedQps = fun _ => none
  tried : ∀ {succeeded}, state.attempt = some succeeded →
    state.queue.resized = true ∧ (succeeded = true → state.queue.ibverbs.Staged) ∧
      (device.BlocksFit → state.queue.ibverbs.Staged → succeeded = true)

theorem matches_start (device : Fin n → Device n) (p : Fin n) :
    Matches (device p) (start device p) where
  quiet := (initial_spec (device p)).1
  notCached := (initial_spec (device p)).2.2.1
  sameBlocks := by
    have slotsOnly := (MemoryTable.initial.reserve_frame .none (IBVerbs.initial (device p)) 1).1
    exact congrArg Device.controlBlock slotsOnly.sameDevice
  untried _ := ⟨rfl, (initial_spec (device p)).2.2.2.1⟩
  tried isSome := by cases isSome

/-- A resize keeps the record right. -/
theorem Matches.resize {device : Device n} {state : Recorded n} (right : Matches device state)
    (p : Fin n) (call : Resize) : Matches device (state.resize call) := by
  have spec := state.queue.resize_spec call
  simp only [Recorded.resize]
  generalize state.queue.resize call = outcome at spec ⊢
  rcases outcome with ⟨queue, code⟩
  rcases spec with ⟨undisturbed, staging⟩
  have quiet : queue.Quiet := ⟨undisturbed.sameEmpty.trans right.quiet.nothingAdded,
    (congrArg SyncRequest.isActive undisturbed.sameRequest).trans right.quiet.idle⟩
  have notCached : queue.ibverbs.syncCached = false :=
    undisturbed.sameCached.trans right.notCached
  have sameBlocks : queue.ibverbs.device.controlBlock = device.controlBlock :=
    (congrArg Device.controlBlock undisturbed.device).trans right.sameBlocks
  cases staging with
  | inl attempted =>
      have asked : ¬queue.ibverbs.device.createQpCalls =
          state.queue.ibverbs.device.createQpCalls := by
        have calls := attempted.calls
        have := p.pos
        simp only at calls
        omega
      refine ⟨quiet, notCached, sameBlocks, ?_, ?_⟩
      · intro untried
        simp only [if_neg asked] at untried
        cases untried
      · intro succeeded tried
        simp only [if_neg asked, Option.some.injEq] at tried
        rw [← tried, decide_eq_true_iff]
        refine ⟨attempted.resized, attempted.succeeds, fun fit staged => ?_⟩
        by_contra failed
        exact attempted.fails failed (fun k => (congrFun right.sameBlocks k).trans (fit k)) staged
  | inr refused =>
      have sameResized : queue.resized = state.queue.resized := refused.sameResized
      have sameStaged : queue.ibverbs.stagedQps = state.queue.ibverbs.stagedQps :=
        refused.sameStaged
      refine ⟨quiet, notCached, sameBlocks, ?_, ?_⟩
      · intro untried
        simp only [if_pos refused.sameCalls] at untried
        simp only [sameResized, sameStaged]
        exact right.untried untried
      · intro succeeded tried
        simp only [if_pos refused.sameCalls] at tried
        simp only [sameResized, IBVerbs.Staged, sameStaged]
        exact right.tried tried

variable {device : Fin n → Device n} {state before after : Fin n → Recorded n} {p : Fin n}

/-- The vote is about the attempts. -/
theorem resized_iff (right : ∀ p, Matches (device p) (state p)) (p : Fin n) :
    (state p).queue.resized = true ↔ (state p).attempt ≠ none := by
  cases attempt : (state p).attempt with
  | none => simp [((right p).untried attempt).1]
  | some succeeded => simp [((right p).tried attempt).1]

/-- All queue pairs of a process are staged if its last attempt has succeeded, and only then if
no attempt fails on a shared pointer. -/
theorem staged_of_succeeded (right : Matches (device p) (state p))
    (succeeded : (state p).attempt = some true) : (state p).queue.ibverbs.Staged :=
  (right.tried succeeded).2.1 rfl

theorem succeeded_of_staged (right : Matches (device p) (state p)) (fit : (device p).BlocksFit)
    (staged : (state p).queue.ibverbs.Staged) : (state p).attempt = some true := by
  cases attempt : (state p).attempt with
  | none =>
      have first := staged p
      rw [(right.untried attempt).2] at first
      cases first
  | some succeeded => rw [(right.tried attempt).2.2 fit staged]

/-- A sync of complete attempts reconnects all processes, throws everywhere or has nothing to
reconnect. -/
theorem sync_cases (right : ∀ p, Matches (device p) (state p)) (complete : Complete state)
    (task : Fin n → Task) {attr : SyncAttr} (mode : attr.mode = .default) :
    ∃ (rounds : List (Fin n → Collective n)) (queue : Fin n → MessageQueue n)
      (result : Fin n → Except Exn Int),
      Executes (fun p => (state p).queue.superstep p (task p) attr) rounds
        (fun p => (queue p, result p)) ∧
      ∀ p, Matches (device p) ⟨queue p, attemptAfter (state p).attempt (result p)⟩ := by
  have quiet : ∀ p, (state p).queue.Quiet := fun p => (right p).quiet
  by_cases some_ : ∃ p, (state p).attempt ≠ none
  · have all := complete some_
    have resizes : ∃ p, (state p).queue.resized = true := by
      rcases some_ with ⟨p, tried⟩
      exact ⟨p, (resized_iff right p).mpr tried⟩
    have staged : ∀ p, (state p).queue.ibverbs.Staged := fun p =>
      staged_of_succeeded (right p) (all p)
    rcases superstep_executes_resized task quiet mode resizes staged with
      ⟨rounds, queue, _, execution, renewed⟩ | ⟨rounds, queue, thrown, execution, stopped⟩
    · refine ⟨rounds, queue, _, execution, fun p => ⟨(renewed p).quiet, (renewed p).cached,
        (congrArg Device.controlBlock (renewed p).device).trans (right p).sameBlocks,
        fun _ => ⟨(renewed p).notResized, (renewed p).noneStaged⟩, fun tried => by cases tried⟩⟩
    · refine ⟨rounds, queue, _, execution, fun p => ⟨(stopped p).quiet,
        (stopped p).sameCached.trans (right p).notCached,
        (congrArg Device.controlBlock (stopped p).device).trans (right p).sameBlocks,
        fun untried => ?_, fun tried => ?_⟩⟩
      · rw [attemptAfter, all p] at untried
        cases untried
      · simp only [(stopped p).sameResized, staged_of_qpNums (stopped p).sameStaged]
        exact (right p).tried tried
  · have untried : ∀ p, (state p).attempt = none := fun p =>
      not_not.mp fun tried => some_ ⟨p, tried⟩
    have unseen : attr.mode = .default → ∀ p, (state p).queue.resized = false := fun _ p =>
      ((right p).untried (untried p)).1
    have agree : ∀ p q, (state p).queue.ibverbs.syncCached =
        (state q).queue.ibverbs.syncCached := fun p q =>
      (right p).notCached.trans (right q).notCached.symm
    rcases superstep_executes_plain task quiet unseen agree with
      ⟨rounds, queue, _, execution, concluded⟩
    refine ⟨rounds, queue, _, execution, fun p => ⟨(concluded p).quiet, ?_, ?_,
      fun _ => ⟨(concluded p).notResized, ?_⟩, fun tried => by cases tried⟩⟩
    · rw [(concluded p).cached, mode]
      rfl
    · exact (congrArg Device.controlBlock (concluded p).sameDevice).trans (right p).sameBlocks
    · exact (concluded p).sameStaged.trans ((right p).untried (untried p)).2

theorem matches_of_reachable
    (run : Transition.Reachable Happens Together (start device) state) :
    ∀ p, Matches (device p) (state p) := by
  let Holds : (Fin n → Recorded n) → Prop := fun state => ∀ p, Matches (device p) (state p)
  have initially : Holds (start device) := matches_start device
  apply run.invariant initially
  intro before event after right together happens p
  cases happens with
  | resize resizing call =>
      by_cases same : p = resizing
      · subst same
        rw [Function.update_self]
        exact (right p).resize p call
      · rw [Function.update_of_ne same]
        exact right p
  | @sync _ attr rounds task result mode execution recorded =>
      cases n with
      | zero => exact p.elim0
      | succ n =>
          rcases sync_cases right together task mode with
            ⟨_, queue, ended, expected, matching⟩
          rcases execution.unique expected with ⟨rfl, same⟩
          rcases Prod.mk.inj (congrFun same p) with ⟨sameQueue, sameResult⟩
          have reached : after p = ⟨queue p, attemptAfter (before p).attempt (ended p)⟩ := by
            rw [← sameResult, ← recorded p, ← sameQueue]
          rw [reached]
          exact matching p

/-- In a run whose syncs wait until no process stays behind, a sync that waits as well finds all
queue pairs staged if it is about to reconnect, and it meets no fault.  Without failures of shared
pointers it finds them staged only if it waits. -/
theorem reconnects_complete
    (run : Transition.Reachable Happens Together (start device) state) :
    (Complete state →
      (∑ q, ((state q).queue.vote false).2 > 0 → ∀ p, (state p).queue.ibverbs.Staged) ∧
      ∀ (attr : SyncAttr), attr.mode = .default →
        ∃ rounds after, Happens state (.sync attr rounds) after) ∧
    ((∀ p, (device p).BlocksFit) →
      (∑ q, ((state q).queue.vote false).2 > 0 → ∀ p, (state p).queue.ibverbs.Staged) →
      Complete state) := by
  have right := matches_of_reachable run
  rw [sum_vote_resized_pos fun _ => false]
  simp only [resized_iff right]
  refine ⟨fun complete => ⟨fun tried p => ?_, fun attr mode => ?_⟩, fun fit staged tried p => ?_⟩
  · exact staged_of_succeeded (right p) (complete tried p)
  · rcases sync_cases right complete (fun _ => 0) mode with
      ⟨rounds, queue, result, execution, _⟩
    have happens : Happens state (.sync attr rounds)
        fun p => ⟨queue p, attemptAfter (state p).attempt (result p)⟩ :=
      .sync mode execution fun _ => rfl
    exact ⟨rounds, _, happens⟩
  · exact succeeded_of_staged (right p) (fit p) (staged tried p)

/-- Two processes, of which only the first has resized its message queue. -/
def straggling : Fin 2 → Recorded 2 :=
  Function.update (start fun _ => .generous 2) 0
    ((start (fun _ => .generous 2) 0).resize (.mesgQueue 4))

/-- Two processes that have both resized their message queues. -/
def joined : Fin 2 → Recorded 2 :=
  Function.update straggling 1 ((straggling 1).resize (.mesgQueue 4))

theorem reachable_straggling :
    Transition.Reachable Happens Together (start fun _ => .generous 2) straggling := by
  have free : Together (start fun _ : Fin 2 => .generous 2) (.resize 0 (.mesgQueue 4)) := trivial
  exact Transition.Reachable.refl.tail free (.resize _ 0 _)

theorem reconnects_complete_joined :
    Transition.Reachable Happens Together (start fun _ => .generous 2) joined ∧
      Complete joined ∧ ∑ q, ((joined q).queue.vote false).2 > 0 ∧
      (∀ p, (joined p).queue.ibverbs.Staged) ∧
      ∃ rounds after, Happens joined (.sync .default rounds) after := by
  have free : Together straggling (.resize 1 (.mesgQueue 4)) := trivial
  have run := reachable_straggling.tail free (.resize _ 1 _)
  have complete : Complete joined := fun _ => by decide
  have votes : ∑ q, ((joined q).queue.vote false).2 > 0 := by decide
  exact ⟨run, complete, votes, ((reconnects_complete run).1 complete).1 votes,
    ((reconnects_complete run).1 complete).2 .default (by decide)⟩

/-- A process that has not resized is drawn into the reconnection of one that has, and faults. -/
theorem straggler_faults :
    Transition.Reachable Happens (fun _ _ => True) (start fun _ => .generous 2) straggling ∧
      ∑ q, ((straggling q).queue.vote false).2 > 0 ∧
      (straggling 1).queue.ibverbs.stagedQps 0 = none ∧
      (¬∀ p, (straggling p).queue.ibverbs.Staged) ∧
      ∀ rounds after, ¬Happens straggling (.sync .default rounds) after := by
  refine ⟨reachable_straggling.mono fun _ _ _ => trivial, by decide, by decide, by decide, ?_⟩
  intro rounds after happens
  cases happens with
  | sync mode execution recorded =>
      have right := matches_of_reachable reachable_straggling
      simp only [superstep_eq _ _ _ (right _).quiet] at execution
      have resizes : ∃ q, (straggling q).queue.resized = true := by decide
      have unstaged : (straggling 1).queue.ibverbs.stagedQps ⟨0, (1 : Fin 2).pos⟩ = none := by
        decide
      exact not_executes_syncVerbs_unstaged _ mode resizes unstaged execution

end Recorded

end MessageQueue

end Talpf
