import Talpf.Interface.Supersteps

/-!
# Early exit

A process that returns from its SPMD function votes for an abort, and the others
vote against it at their next sync.  Whoever calls sync fewer times than the
others thereby ends the communication of all.
-/

namespace Talpf

open Spmd

variable {n : ℕ}

namespace Caller

/-- The calls before the next sync or, after the last sync, before the return. -/
def upcoming (script : Script) : List Request := script.supersteps.headD script.last

/-- A process that has no more syncs ahead aborts. -/
def exits (script : Script) : Bool := script.supersteps.isEmpty

/-- What a process returns that has learnt of an early exit, or of the exit of all. -/
def verdict (count : ℕ) (exit : Bool) : Err :=
  if exit = true ∧ count = n then .success else .fatal

/-- A process that returns votes for an abort and compares the count with the number of
processes. -/
theorem run_exit {pid : Fin n} (task : Task) {last : List Request} {caller after : Caller n}
    (codes : List Err) (made : caller.makeAll pid last = some after)
    (running : after.runtime.aborted = 0) (ended : MessageQueue n) (count : ℕ) :
    ∃ next, ((caller.run pid task last [] codes).bind fun (runtime, result) =>
        Process.finish pid task runtime result) =
        (after.queue.sync pid task true .default).bind next ∧
      next (ended, .ok count) = .done (.ok (verdict (n := n) count true), some codes) := by
  have noAbort : ¬after.runtime.aborted ≠ 0 := not_not.mpr running
  simp only [run, made, Program.done_bind, Process.finish, Process.leave, if_pos running,
    Interface.abort, if_neg noAbort, Program.bind_assoc]
  refine ⟨_, rfl, ?_⟩
  by_cases all : count = n <;> simp [verdict, all]

/-- The process once it knows how many have aborted. -/
def notified (caller : Caller n) (queue : MessageQueue n) (count : ℕ) : Caller n :=
  { caller with runtime := ⟨queue, count⟩ }

/-- A process that syncs while others return learns of the abort, and all its syncs fail. -/
theorem run_sync_aborted {pid : Fin n} (task : Task) {last requests : List Request}
    {supersteps : List (List Request)} {caller after : Caller n} (codes : List Err)
    (made : caller.makeAll pid requests = some after) (running : after.runtime.aborted = 0)
    {ended : MessageQueue n} (idle : ended.ibverbs.syncRequest.isActive = false) {count : ℕ}
    (performs : Performs pid last supersteps (after.notified ended count))
    (aborted : count ≠ 0) :
    ∃ next, ((caller.run pid task last (requests :: supersteps) codes).bind
        fun (runtime, result) => Process.finish pid task runtime result) =
        (after.queue.sync pid task false .default).bind next ∧
      next (ended, .ok count) = .done (.ok (verdict (n := n) count false),
        some (codes ++ List.replicate (supersteps.length + 1) .fatal)) := by
  have knows : (after.notified ended count).runtime.aborted ≠ 0 := by
    simpa [notified] using aborted
  rcases run_aborted task (codes ++ [.fatal]) performs knows with ⟨runtime, kept, ran⟩
  rw [← kept] at knows
  have completed : (⟨ended, count⟩ : Interface n).completeRequest = .done ⟨ended, count⟩ := by
    simp [Interface.completeRequest, MessageQueue.completeRequest, IBVerbs.completeRequest, idle]
  simp only [run, made, Interface.sync, if_pos running, Program.bind_assoc]
  refine ⟨_, rfl, ?_⟩
  simp only [Program.done_bind, completed]
  have rest : ({ after with runtime := ⟨ended, count⟩ } : Caller n).run pid task last supersteps
      (codes ++ [.fatal]) = _ := ran
  simp only [Nat.cast_eq_zero, if_neg aborted, rest, Program.done_bind, Process.finish,
    Process.leave, if_neg knows]
  simp [verdict, List.replicate_succ]

/-- If some process returns, then the vote that follows ends the communication of all. -/
theorem run_ends {task : Fin n → Task} {script : Fin n → Script} {caller after : Fin n → Caller n}
    (codes : Fin n → List Err) (made : ∀ p, (caller p).makeAll p (upcoming (script p)) =
      some (after p)) (running : ∀ p, (after p).runtime.aborted = 0) {count : ℕ}
    (counted : (Finset.univ.filter fun q => exits (script q) = true).card = count)
    (exit : ∃ p, exits (script p) = true)
    {rounds : List (Fin n → Collective n)} {ended : Fin n → MessageQueue n}
    (voted : Executes (fun p => (after p).queue.sync p (task p) (exits (script p)) .default) rounds
      (fun p => (ended p, .ok count)))
    (idle : ∀ p, (ended p).ibverbs.syncRequest.isActive = false)
    (performs : ∀ p, exits (script p) = false → Performs p (script p).last
      (script p).supersteps.tail ((after p).notified (ended p) count)) :
    Executes (fun p => ((caller p).run p (task p) (script p).last (script p).supersteps
        (codes p)).bind fun (runtime, result) => Process.finish p (task p) runtime result) rounds
      (fun p => (.ok (if ∀ q, exits (script q) = true then .success else .fatal),
        some (codes p ++ List.replicate (script p).supersteps.length .fatal))) := by
  have aborted : count ≠ 0 := by
    rcases exit with ⟨p, isExit⟩
    rw [← counted]
    exact Finset.card_ne_zero_of_mem (Finset.mem_filter.mpr ⟨Finset.mem_univ p, isExit⟩)
  have all : count = n ↔ ∀ q, exits (script q) = true := by
    rw [← counted]
    constructor
    · intro full q
      have everyone : (Finset.univ.filter fun q => exits (script q) = true) = Finset.univ :=
        Finset.eq_univ_of_card _ (by rw [full, Fintype.card_fin])
      have member := Finset.mem_univ q
      rw [← everyone] at member
      exact (Finset.mem_filter.mp member).2
    · intro everyone
      simp [everyone]
  have programs : ∀ p, ∃ next, ((caller p).run p (task p) (script p).last (script p).supersteps
      (codes p)).bind (fun (runtime, result) => Process.finish p (task p) runtime result) =
        ((after p).queue.sync p (task p) (exits (script p)) .default).bind next ∧
      next (ended p, .ok count) = .done (.ok (verdict (n := n) count (exits (script p))),
        some (codes p ++ List.replicate (script p).supersteps.length .fatal)) := by
    intro p
    have madeHere := made p
    have performsHere := performs p
    generalize script p = own at madeHere performsHere ⊢
    rcases own with ⟨supersteps, last⟩
    cases supersteps with
    | nil =>
        rcases run_exit (task p) (codes p) madeHere (running p) (ended p) count with
          ⟨next, program, finished⟩
        exact ⟨next, program, by simpa only [exits, List.isEmpty_nil, List.length_nil,
          List.replicate_zero, List.append_nil] using finished⟩
    | cons requests supersteps =>
        exact run_sync_aborted (task p) (codes p) madeHere (running p) (idle p) (performsHere rfl)
          aborted
  choose next program finished using programs
  have verdicts : ∀ p, verdict (n := n) count (exits (script p)) =
      if ∀ q, exits (script q) = true then .success else .fatal := by
    intro p
    simp only [verdict, all]
    by_cases everyone : ∀ q, exits (script q) = true
    · rw [if_pos ⟨everyone p, everyone⟩, if_pos everyone]
    · rw [if_neg fun both => everyone both.2, if_neg everyone]
  simp only [verdicts] at finished
  rw [funext program, ← List.append_nil rounds]
  exact voted.bind (.done finished)

/-- A superstep whose sync succeeds at all processes is followed by the next one. -/
theorem run_superstep_iff [Nonempty (Fin n)] {α : Type} {task : Fin n → Task}
    {last requests : Fin n → List Request} {supersteps : Fin n → List (List Request)}
    {caller after : Fin n → Caller n} {codes : Fin n → List Err}
    (made : ∀ p, (caller p).makeAll p (requests p) = some (after p))
    (running : ∀ p, (after p).runtime.aborted = 0)
    {first second rounds : List (Fin n → Collective n)} {ended completed : Fin n → MessageQueue n}
    (voted : Executes (fun p => (after p).queue.sync p (task p) false .default) first
      (fun p => (ended p, .ok 0)))
    (completes : Executes (fun p => (ended p).completeRequest) second completed)
    {nexts : Fin n → Interface n × Except Exn (List Err) → Comm n α} {values : Fin n → α} :
    Executes (fun p => ((caller p).run p (task p) (last p) (requests p :: supersteps p)
        (codes p)).bind (nexts p)) rounds values ↔
      ∃ later, rounds = first ++ (second ++ later) ∧
        Executes (fun p => (((after p).withQueue (completed p)).run p (task p) (last p)
          (supersteps p) (codes p ++ [.success])).bind (nexts p)) later values := by
  have same : ∀ p, ({ after p with runtime := ⟨completed p, 0⟩ } : Caller n) =
      (after p).withQueue (completed p) := by
    intro p
    simp only [withQueue, ← running p]
  simp only [run, made, Interface.sync, if_pos (running _), Program.bind_assoc]
  have voted : Executes (fun p => (after p).runtime.mesgQueue.sync p (task p) false .default)
    first (fun p => (ended p, .ok 0)) := voted
  rw [Executes.bind_iff voted]
  simp only [Program.done_bind, Interface.completeRequest, Program.bind_assoc, if_true]
  constructor
  · rintro ⟨rest, rfl, execution⟩
    rcases (Executes.bind_iff completes).mp execution with ⟨later, rfl, followed⟩
    simp only [same] at followed
    exact ⟨later, rfl, followed⟩
  · rintro ⟨later, rfl, followed⟩
    refine ⟨second ++ later, rfl, (Executes.bind_iff completes).mpr ⟨later, rfl, ?_⟩⟩
    simp only [same]
    exact followed

end Caller

namespace Process

open MessageQueue (plainKinds)

/-- A process that is about to sync, with nothing pending. -/
structure AtRest (caller : Caller n) : Prop where
  quiet : caller.queue.Quiet
  notCached : caller.queue.ibverbs.syncCached = false
  notResized : caller.queue.resized = false
  running : caller.runtime.aborted = 0

theorem atRest_begin (device : Device n) : AtRest (begin device) where
  quiet := (MessageQueue.initial_spec device).1
  notCached := (MessageQueue.initial_spec device).2.2.1
  notResized := rfl
  running := rfl

/-- The collectives of `m` supersteps in which nothing but syncs happens, and of the last vote. -/
def voteKinds (n m : ℕ) : List CollectiveKind :=
  (List.replicate m (plainKinds n .default false ++ [.ibarrier])).flatten ++ [.iallreduceSum]

theorem count_voteKinds (n m : ℕ) : (voteKinds n m).count .iallreduceSum = m + 1 := by
  simp [voteKinds, plainKinds, IBVerbs.countKinds, List.count_flatten, List.count_replicate]

theorem performs_idle {pid : Fin n} {caller : Caller n}
    (idle : caller.queue.ibverbs.syncRequest.isActive = false) (count : ℕ) :
    Caller.Performs pid [] (List.replicate count []) caller := by
  induction count with
  | zero => exact rfl
  | succ count ih => exact ⟨caller, rfl, idle, ih⟩

/-- The calls of a process that only syncs. -/
def syncs (count : ℕ) : Script := ⟨List.replicate count [], []⟩

/-- If some process returns at once, all processes learn of it in one vote. -/
theorem syncs_end (task : Fin n → Task) {k : Fin n → ℕ} (attained : ∃ p, k p = 0)
    {caller : Fin n → Caller n} (atRest : ∀ p, AtRest (caller p)) (codes : Fin n → List Err) :
    ∃ rounds, (∀ p, Collective.kinds p rounds = [.iallreduceSum]) ∧
      Executes (fun p => ((caller p).run p (task p) [] (syncs (k p)).supersteps (codes p)).bind
          fun (runtime, result) => finish p (task p) runtime result) rounds
        (fun p => (.ok (if ∀ q, k q = 0 then .success else .fatal),
          some (codes p ++ List.replicate (k p) .fatal))) := by
  have exits : ∀ p, Caller.exits (syncs (k p)) = true ↔ k p = 0 := by
    intro p
    simp [Caller.exits, syncs]
  have made : ∀ p, (caller p).makeAll p (Caller.upcoming (syncs (k p))) = some (caller p) := by
    intro p
    cases count : k p with
    | zero => rfl
    | succ _ => rfl
  have exit : ∃ p, Caller.exits (syncs (k p)) = true := by
    rcases attained with ⟨p, none⟩
    exact ⟨p, (exits p).mpr none⟩
  rcases MessageQueue.syncVerbs_executes_aborted task (fun p => (caller p).queue)
    SyncAttr.mode_default exit with ⟨rounds, roundKinds, voted⟩
  simp only [← ((atRest _).quiet).sync_eq] at voted
  have ends := Caller.run_ends codes made (fun p => (atRest p).running) rfl exit voted
    (fun p => (atRest p).quiet.idle) (fun p _ => by
      simp only [syncs, List.tail_replicate]
      apply performs_idle
      exact (atRest p).quiet.idle)
  simp only [exits] at ends
  refine ⟨rounds, roundKinds, ?_⟩
  simpa [syncs] using ends

/-- With `m` the least number of syncs, `m` supersteps succeed and one more vote ends the rest. -/
theorem syncs_execute (task : Fin n → Task) (m : ℕ) {k : Fin n → ℕ} (attained : ∃ p, k p = m)
    (least : ∀ p, m ≤ k p) {caller : Fin n → Caller n} (atRest : ∀ p, AtRest (caller p))
    (codes : Fin n → List Err) :
    ∃ rounds, (∀ p, Collective.kinds p rounds = voteKinds n m) ∧
      Executes (fun p => ((caller p).run p (task p) [] (syncs (k p)).supersteps (codes p)).bind
          fun (runtime, result) => finish p (task p) runtime result) rounds
        (fun p => (.ok (if ∀ q, k q = m then .success else .fatal),
          some (codes p ++ List.replicate m .success ++ List.replicate (k p - m) .fatal))) := by
  induction m generalizing k caller codes with
  | zero => simpa [voteKinds] using syncs_end task attained atRest codes
  | succ m ih =>
      obtain ⟨fewer, rfl⟩ : ∃ fewer : Fin n → ℕ, k = fun p => fewer p + 1 :=
        ⟨fun p => k p - 1, funext fun p =>
          (Nat.sub_add_cancel ((Nat.succ_pos m).trans_le (least p))).symm⟩
      have : Nonempty (Fin n) := attained.nonempty
      have unseen : SyncAttr.default.mode = .default → ∀ p, (caller p).queue.resized = false :=
        fun _ p => (atRest p).notResized
      have agree : ∀ p q, (caller p).queue.ibverbs.syncCached =
          (caller q).queue.ibverbs.syncCached := fun p q =>
        (atRest p).notCached.trans (atRest q).notCached.symm
      rcases MessageQueue.syncVerbs_executes_plain task unseen (fun _ => agree)
        (fun p => (atRest p).quiet.idle) with ⟨first, middle, firstKinds, voted, requested⟩
      rcases MessageQueue.completeRequest_executes
        (fun p => (caller p).queue.accepted (middle p)) requested with
        ⟨second, after, secondKinds, completes, same⟩
      simp only [← ((atRest _).quiet).sync_eq] at voted
      have atRestAfter : ∀ p, AtRest ((caller p).withQueue
          ((caller p).queue.accepted (after p))) := by
        intro p
        rcases same p with ⟨idle, cached, _⟩
        exact ⟨⟨(atRest p).quiet.nothingAdded, idle⟩,
          cached.trans ((requested p).cached), rfl, (atRest p).running⟩
      have attainedAfter : ∃ p, fewer p = m := by
        rcases attained with ⟨p, atLeast⟩
        exact ⟨p, Nat.succ.inj atLeast⟩
      have leastAfter : ∀ p, m ≤ fewer p := fun p => Nat.le_of_succ_le_succ (least p)
      rcases ih attainedAfter leastAfter atRestAfter (fun p => codes p ++ [.success]) with
        ⟨rest, restKinds, execution⟩
      refine ⟨first ++ (second ++ rest), fun p => ?_, ?_⟩
      · have kinds := firstKinds p
        rw [(atRest p).notCached] at kinds
        simp [kinds, secondKinds p, restKinds p, voteKinds, List.replicate_succ]
      · have made : ∀ p, (caller p).makeAll p [] = some (caller p) := fun _ => rfl
        have superstep := (Caller.run_superstep_iff made (fun p => (atRest p).running) voted
          completes).mpr ⟨rest, rfl, execution⟩
        simpa [syncs, List.replicate_succ] using superstep

/-- Processes that sync `k p` times before they return, at least `m` times each and some of them
exactly `m` times, take part in the same collectives, among them `m + 1` votes, and then all have
ended.  If all sync equally often, every sync and every hook succeeds.  Otherwise every hook fails,
and so does every sync after the first `m`. -/
theorem earlyExit_detected (task : Fin n → Task) (memRange : Fin n → ℕ) (device : Fin n → Device n)
    {k : Fin n → ℕ} {m : ℕ} (attained : ∃ p, k p = m) (least : ∀ p, m ≤ k p) :
    ∃ rounds, Executes
        (fun p => hookScript p (task p) (memRange p) (device p) (syncs (k p))) rounds
        (fun p => (.ok (if ∀ q, k q = m then .success else .fatal),
          some (List.replicate m .success ++ List.replicate (k p - m) .fatal))) ∧
      ∀ p, Collective.kinds p rounds = prologueKinds ++ voteKinds n m ∧
        (Collective.kinds p rounds).count .iallreduceSum = m + 1 := by
  have : Nonempty (Fin n) := attained.nonempty
  rcases syncs_execute task m attained least (fun p => atRest_begin (device p)) (fun _ => []) with
    ⟨rounds, roundKinds, execution⟩
  refine ⟨_, hookScript_executes_iff.mpr ⟨rounds, rfl, execution⟩, fun p => ?_⟩
  have kinds : Collective.kinds p ((fun p => .allreduceMax (memRange p)) ::
      (fun _ => .allreduceOr false) :: (fun _ => .barrier) :: rounds) =
        prologueKinds ++ voteKinds n m := by
    rw [← roundKinds p]
    rfl
  refine ⟨kinds, ?_⟩
  rw [kinds, List.count_append, count_voteKinds]
  simp [prologueKinds]

theorem earlyExit_detected_three :
    ∃ rounds, Executes
        (fun p => hookScript p 0 1 (.generous 3) (syncs (![2, 1, 4] p))) rounds
        (fun p => (.ok .fatal, some (List.replicate 1 .success ++
          List.replicate (![2, 1, 4] p - 1) .fatal))) ∧
      ∀ p, Collective.kinds p rounds = prologueKinds ++ voteKinds 3 1 ∧
        (Collective.kinds p rounds).count .iallreduceSum = 1 + 1 := by
  have attained : ∃ p, (![2, 1, 4] : Fin 3 → ℕ) p = 1 := ⟨1, rfl⟩
  have least : ∀ p, 1 ≤ (![2, 1, 4] : Fin 3 → ℕ) p := by decide
  have differ : ¬∀ p, (![2, 1, 4] : Fin 3 → ℕ) p = 1 := by decide
  simpa only [if_neg differ] using
    earlyExit_detected (fun _ => 0) (fun _ => 1) (fun _ => .generous 3) attained least

end Process

end Talpf
