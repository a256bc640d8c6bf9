import Talpf.Interface.EarlyExit

/-!
# SPMD functions that throw

A process whose SPMD function throws votes for an abort in the handler of the
hook.  The handler does not look whether the context has aborted already, and it
casts the same vote as a process that returns.
-/

namespace Talpf

open Spmd

variable {n : ℕ}

/-- An SPMD function that syncs in the default mode, and then returns or throws.  It may look at
what its syncs return. -/
inductive SyncFunction where
  | returns
  | throws
  | sync (next : Err → SyncFunction)

namespace SyncFunction

/-- How often the function syncs while its syncs succeed. -/
def syncs : SyncFunction → ℕ
  | .returns | .throws => 0
  | .sync next => (next .success).syncs + 1

/-- What is left of the function after a number of successful syncs. -/
def rest : SyncFunction → ℕ → SyncFunction
  | .sync next, m + 1 => (next .success).rest m
  | function, _ => function

/-- The function ends in an exception when all its syncs fail. -/
def endsInThrow : SyncFunction → Bool
  | .returns => false
  | .throws => true
  | .sync next => (next .fatal).endsInThrow

/-- The function throws if only its first `m` syncs succeed. -/
def throwsAfter (function : SyncFunction) (m : ℕ) : Bool := (function.rest m).endsInThrow

/-- Run the function in a context. -/
def run (pid : Fin n) (task : Task) :
    SyncFunction → Interface n → Comm n (Interface n × Except Exn Unit)
  | .returns, runtime => .done (runtime, .ok ())
  | .throws, runtime => .done (runtime, .error .exception)
  | .sync next, runtime =>
      (runtime.sync pid task .default).bind fun (runtime, result) =>
        match result with
        | .error exn => .done (runtime, .error exn)
        | .ok code =>
            runtime.completeRequest.bind fun runtime => (next code).run pid task runtime

/-- Run the function and then do what the hook does. -/
def runAndFinish (pid : Fin n) (task : Task) (function : SyncFunction) (runtime : Interface n) :
    Comm n (Except Exn Err × Option Unit) :=
  (function.run pid task runtime).bind fun (runtime, result) =>
    Process.finish pid task runtime result

/-- Run the function under the hook. -/
def hook (pid : Fin n) (task : Task) (memRange : ℕ) (device : Device n)
    (function : SyncFunction) : Comm n (Except Exn Err × Option Unit) :=
  Process.hook pid task memRange device false (function.run pid task)

theorem run_aborted {pid : Fin n} (task : Task) (function : SyncFunction) {runtime : Interface n}
    (aborted : runtime.aborted ≠ 0)
    (idle : runtime.mesgQueue.ibverbs.syncRequest.isActive = false) :
    function.run pid task runtime =
      .done (runtime, if function.endsInThrow then .error .exception else .ok ()) := by
  have completed : runtime.completeRequest = .done runtime := by
    simp [Interface.completeRequest, MessageQueue.completeRequest, IBVerbs.completeRequest, idle]
  induction function with
  | returns => rfl
  | throws => rfl
  | sync next ih =>
      simp only [run, Interface.sync, if_neg aborted, Program.done_bind, completed]
      exact ih .fatal

theorem runAndFinish_aborted_returns {pid : Fin n} (task : Task) {function : SyncFunction}
    (returns : function.endsInThrow = false) {runtime : Interface n}
    (aborted : runtime.aborted ≠ 0)
    (idle : runtime.mesgQueue.ibverbs.syncRequest.isActive = false) :
    function.runAndFinish pid task runtime = .done (.ok .fatal, some ()) := by
  simp only [runAndFinish, run_aborted task function aborted idle, returns, Bool.false_eq_true,
    if_false, Program.done_bind, Process.finish, Process.leave, if_neg aborted]

/-- The handler of the hook calls `abort` although the context has aborted. -/
theorem runAndFinish_aborted_throws {pid : Fin n} (task : Task) {function : SyncFunction}
    (throws : function.endsInThrow = true) {runtime : Interface n}
    (aborted : runtime.aborted ≠ 0)
    (idle : runtime.mesgQueue.ibverbs.syncRequest.isActive = false) :
    function.runAndFinish pid task runtime = .fault := by
  simp only [runAndFinish, run_aborted task function aborted idle, throws, if_true,
    Program.done_bind, Process.finish, Process.rescue, Interface.abort, if_pos aborted,
    Program.fault_bind]

/-- The function has no sync ahead. -/
def ended : SyncFunction → Bool
  | .returns | .throws => true
  | .sync _ => false

/-- What the hook does once the last vote has counted the processes that abort. -/
def afterVote (n : ℕ) (function : SyncFunction) (count : ℕ) :
    Comm n (Except Exn Err × Option Unit) :=
  match function with
  | .returns => .done (.ok (if count = n then .success else .fatal), some ())
  | .throws => .done (.ok .fatal, none)
  | .sync next =>
      if (next .fatal).endsInThrow then .fault else .done (.ok .fatal, some ())

theorem runAndFinish_voted (pid : Fin n) (task : Task) (function : SyncFunction)
    {runtime : Interface n} (running : runtime.aborted = 0) {queue : MessageQueue n}
    (idle : queue.ibverbs.syncRequest.isActive = false) {count : ℕ} (some : count ≠ 0) :
    ∃ next, function.runAndFinish pid task runtime =
        (runtime.mesgQueue.sync pid task function.ended .default).bind next ∧
      next (queue, .ok count) = function.afterVote n count := by
  have noAbort : ¬runtime.aborted ≠ 0 := not_not.mpr running
  cases function with
  | returns =>
      simp only [runAndFinish, run, Program.done_bind, Process.finish, Process.leave,
        if_pos running, Interface.abort, if_neg noAbort, Program.bind_assoc]
      refine ⟨_, rfl, ?_⟩
      by_cases all : count = n
      · simp [afterVote, all]
      · simp [afterVote, all]
  | throws =>
      simp only [runAndFinish, run, Program.done_bind, Process.finish, Process.rescue,
        Interface.abort, if_neg noAbort, Program.bind_assoc]
      exact ⟨_, rfl, rfl⟩
  | sync next =>
      have aborted : (⟨queue, count⟩ : Interface n).aborted ≠ 0 := Int.natCast_ne_zero.mpr some
      have completed : (⟨queue, count⟩ : Interface n).completeRequest = .done ⟨queue, count⟩ := by
        simp [Interface.completeRequest, MessageQueue.completeRequest, IBVerbs.completeRequest,
          idle]
      simp only [runAndFinish, run, Interface.sync, if_pos running, Program.bind_assoc]
      refine ⟨_, rfl, ?_⟩
      simp only [Program.done_bind, completed, Nat.cast_eq_zero, if_neg some]
      change (next .fatal).runAndFinish pid task ⟨queue, count⟩ = _
      simp only [afterVote]
      cases throws : (next .fatal).endsInThrow with
      | true => exact runAndFinish_aborted_throws task throws aborted idle
      | false => exact runAndFinish_aborted_returns task throws aborted idle

end SyncFunction

namespace Collective

/-- In how many of the rounds process `p` votes for an abort. -/
def aborts (p : Fin n) (rounds : List (Fin n → Collective n)) : ℕ :=
  rounds.countP fun ops => decide ((ops p).ballot.1 ≠ 0)

theorem aborts_append (p : Fin n) (first second : List (Fin n → Collective n)) :
    aborts p (first ++ second) = aborts p first + aborts p second := List.countP_append

/-- A process votes for an abort in a vote only. -/
theorem aborts_le_count (p : Fin n) (rounds : List (Fin n → Collective n)) :
    aborts p rounds ≤ (kinds p rounds).count .iallreduceSum := by
  induction rounds with
  | nil => exact Nat.le_refl _
  | cons ops rounds ih =>
      rw [aborts, List.countP_cons, kinds_cons, List.count_cons]
      apply Nat.add_le_add ih
      cases ops p with
      | iallreduceSum xs =>
          have bound : ∀ votes : Bool, (if votes = true then 1 else 0) ≤ 1 := by decide
          exact bound _
      | _ => exact Nat.zero_le _

end Collective

namespace MessageQueue

variable {queue : Fin n → MessageQueue n} {abort : Fin n → Bool}

/-- In a default sync that votes once, exactly the processes that abort vote for it. -/
theorem aborts_syncVerbs [Nonempty (Fin n)] {task : Fin n → Task}
    {rounds : List (Fin n → Collective n)} {values : Fin n → MessageQueue n × Except Exn Int}
    (voted : Executes (fun p => syncVerbs p (task p) (queue p) (abort p) .default) rounds values)
    (once : ∀ p, (Collective.kinds p rounds).count .iallreduceSum = 1) (p : Fin n) :
    Collective.aborts p rounds = if abort p = true then 1 else 0 := by
  simp only [syncVerbs, IBVerbs.sync, SyncAttr.mode_default, if_true, Program.call_bind] at voted
  rcases Executes.call_iff.mp voted with ⟨_, later, rfl, _⟩
  have single := once p
  rw [Collective.kinds_cons, List.count_cons] at single
  have none : (Collective.kinds p later).count .iallreduceSum = 0 := by
    simpa [Collective.kind] using single
  have laterAborts : Collective.aborts p later = 0 :=
    Nat.le_zero.mp (none ▸ Collective.aborts_le_count p later)
  rw [Collective.aborts, List.countP_cons]
  change Collective.aborts p later +
    (if decide ((if abort p = true then (1 : Int) else 0) ≠ 0) = true then 1 else 0) = _
  rw [laterAborts]
  cases abort p with
  | true => rfl
  | false => rfl

end MessageQueue

namespace SyncFunction

open Process (AtRest)
open MessageQueue (plainKinds)

variable {task : Fin n → Task}

/-- Contexts in which nothing is pending and no process has aborted. -/
def Fresh (runtime : Fin n → Interface n) : Prop := ∀ p, AtRest ⟨runtime p, [], []⟩

theorem Fresh.sync_eq {runtime : Fin n → Interface n} (fresh : Fresh runtime) (p : Fin n)
    (task : Task) (abort : Bool) : (runtime p).mesgQueue.sync p task abort .default =
      MessageQueue.syncVerbs p task (runtime p).mesgQueue abort .default :=
  (fresh p).quiet.sync_eq p task abort .default

/-- A superstep that all processes enter is followed by the next one. -/
theorem superstep_iff [Nonempty (Fin n)] (task : Fin n → Task) {runtime : Fin n → Interface n}
    (fresh : Fresh runtime) (next : Fin n → Err → SyncFunction) :
    ∃ (first : List (Fin n → Collective n)) (after : Fin n → Interface n),
      (∀ p, Collective.kinds p first = plainKinds n .default false ++ [.ibarrier]) ∧
      (∀ p, Collective.aborts p first = 0) ∧ Fresh after ∧
      ∀ rounds values, Executes (fun p => (SyncFunction.sync (next p)).runAndFinish p (task p)
          (runtime p)) rounds values ↔
        ∃ later, rounds = first ++ later ∧
          Executes (fun p => (next p .success).runAndFinish p (task p) (after p)) later values := by
  have unseen : SyncAttr.default.mode = .default → ∀ p, (runtime p).mesgQueue.resized = false :=
    fun _ p => (fresh p).notResized
  have agree : ∀ p q, (runtime p).mesgQueue.ibverbs.syncCached =
      (runtime q).mesgQueue.ibverbs.syncCached := fun p q =>
    (fresh p).notCached.trans (fresh q).notCached.symm
  rcases MessageQueue.syncVerbs_executes_plain task unseen (fun _ => agree)
    (fun p => (fresh p).quiet.idle) with ⟨first, middle, firstKinds, voted, requested⟩
  rcases MessageQueue.completeRequest_executes
    (fun p => (runtime p).mesgQueue.accepted (middle p)) requested with
    ⟨second, after, secondKinds, completes, same⟩
  have kinds : ∀ p, Collective.kinds p first = plainKinds n .default false := by
    intro p
    rw [firstKinds p]
    exact congrArg (plainKinds n .default) (fresh p).notCached
  have once : ∀ p, (Collective.kinds p first).count .iallreduceSum = 1 := by
    intro p
    simp [kinds p, plainKinds, IBVerbs.countKinds, List.count_replicate]
  have firstAborts := fun p => MessageQueue.aborts_syncVerbs voted once p
  have secondAborts : ∀ p, Collective.aborts p second = 0 := by
    intro p
    apply Nat.le_zero.mp
    refine (Collective.aborts_le_count p second).trans ?_
    rw [secondKinds p]
    decide
  have running : ∀ p, (runtime p).aborted = 0 := fun p => (fresh p).running
  refine ⟨first ++ second, fun p => ⟨(runtime p).mesgQueue.accepted (after p), 0⟩, fun p => ?_,
    fun p => ?_, fun p => ?_, fun rounds values => ?_⟩
  · rw [Collective.kinds_append, kinds p, secondKinds p]
    rfl
  · rw [Collective.aborts_append, firstAborts p, secondAborts p]
    rfl
  · rcases same p with ⟨idle, cached, _⟩
    exact ⟨⟨(fresh p).quiet.nothingAdded, idle⟩, cached.trans ((requested p).cached), rfl, rfl⟩
  · simp only [runAndFinish, run, Interface.sync, if_pos (running _), fresh.sync_eq,
      Program.bind_assoc]
    rw [Executes.bind_iff voted]
    simp only [Program.done_bind, Interface.completeRequest, Program.bind_assoc, if_true]
    constructor
    · rintro ⟨_, rfl, execution⟩
      rcases (Executes.bind_iff completes).mp execution with ⟨later, rfl, followed⟩
      exact ⟨later, (List.append_assoc _ _ _).symm, followed⟩
    · rintro ⟨later, rfl, followed⟩
      exact ⟨second ++ later, List.append_assoc _ _ _,
        (Executes.bind_iff completes).mpr ⟨later, rfl, followed⟩⟩

/-- Once some process has no sync ahead, one more vote counts those processes. -/
theorem lastVote_iff [Nonempty (Fin n)] (task : Fin n → Task) {runtime : Fin n → Interface n}
    (fresh : Fresh runtime) {function : Fin n → SyncFunction}
    (some : ∃ p, (function p).ended = true) :
    ∃ vote : List (Fin n → Collective n), (∀ p, Collective.kinds p vote = [.iallreduceSum]) ∧
      (∀ p, Collective.aborts p vote ≤ 1) ∧
      ∀ rounds values, Executes (fun p => (function p).runAndFinish p (task p) (runtime p))
          rounds values ↔
        ∃ later, rounds = vote ++ later ∧ Executes (fun p => (function p).afterVote n
          (Finset.univ.filter fun q => (function q).ended = true).card) later values := by
  rcases MessageQueue.syncVerbs_executes_aborted task (fun p => (runtime p).mesgQueue)
    SyncAttr.mode_default some with ⟨vote, voteKinds, voted⟩
  have nonzero : (Finset.univ.filter fun q => (function q).ended = true).card ≠ 0 := by
    rcases some with ⟨p, isEnd⟩
    exact Finset.card_ne_zero_of_mem (Finset.mem_filter.mpr ⟨Finset.mem_univ p, isEnd⟩)
  have running : ∀ p, (runtime p).aborted = 0 := fun p => (fresh p).running
  have idle : ∀ p, (runtime p).mesgQueue.ibverbs.syncRequest.isActive = false :=
    fun p => (fresh p).quiet.idle
  choose next program finished using fun p =>
    runAndFinish_voted p (task p) (function p) (running p) (idle p) nonzero
  refine ⟨vote, voteKinds, fun p => ?_, fun rounds values => ?_⟩
  · refine (Collective.aborts_le_count p vote).trans ?_
    rw [voteKinds p]
    decide
  · simp only [program, fresh.sync_eq]
    rw [Executes.bind_iff voted]
    exact exists_congr fun later => and_congr_right fun _ =>
      iff_of_eq (congrArg (Executes · later values) (funext finished))

theorem ended_iff {function : SyncFunction} : function.ended = true ↔ function.syncs = 0 := by
  cases function with
  | returns => simp [ended, syncs]
  | throws => simp [ended, syncs]
  | sync next => simp [ended, syncs]

/-- What the hook returns to process `p`, and whether its function has returned. -/
def outcome (function : Fin n → SyncFunction) (m : ℕ) (p : Fin n) : Except Exn Err × Option Unit :=
  (.ok (if (function p).throwsAfter m = true ∨ ∃ q, m < (function q).syncs then .fatal
    else .success), if (function p).throwsAfter m = true then none else some ())

/-- No process that syncs more often than the others throws once it is told of the abort. -/
def Calm (function : Fin n → SyncFunction) (m : ℕ) : Prop :=
  ∀ p, m < (function p).syncs → (function p).throwsAfter m = false

theorem afterVote_eq {function : Fin n → SyncFunction} {p : Fin n}
    (calm : 0 < (function p).syncs → (function p).throwsAfter 0 = false) :
    (function p).afterVote n (Finset.univ.filter fun q => (function q).ended = true).card =
      .done (outcome function 0 p) := by
  have all : (Finset.univ.filter fun q => (function q).ended = true).card = n ↔
      ¬∃ q, 0 < (function q).syncs := by
    have full := Finset.card_eq_iff_eq_univ (Finset.univ.filter fun q => (function q).ended = true)
    rw [Fintype.card_fin, Finset.filter_eq_self] at full
    rw [full]
    simp [ended_iff]
  simp only [afterVote, outcome, all]
  cases known : function p with
  | returns =>
      by_cases more : ∃ q, 0 < (function q).syncs
      · simp [throwsAfter, rest, endsInThrow, more]
      · simp [throwsAfter, rest, endsInThrow, more]
  | throws => simp [throwsAfter, rest, endsInThrow]
  | sync next =>
      rw [known] at calm
      have returns : (next .fatal).endsInThrow = false := calm (Nat.succ_pos _)
      have more : ∃ q, 0 < (function q).syncs := ⟨p, by rw [known]; exact Nat.succ_pos _⟩
      simp [throwsAfter, rest, endsInThrow, returns, more]

theorem afterVote_fault {function : SyncFunction} (syncs : 0 < function.syncs)
    (throws : function.throwsAfter 0 = true) (count : ℕ) :
    function.afterVote n count = .fault := by
  cases function with
  | returns => exact absurd syncs (Nat.lt_irrefl 0)
  | throws => exact absurd syncs (Nat.lt_irrefl 0)
  | sync next => exact if_pos throws

/-- Functions of which the first to end sync `m` times have an execution exactly if they are calm,
and then it has `m` successful supersteps and one more vote. -/
theorem runAndFinish_executes_iff [Nonempty (Fin n)] (task : Fin n → Task) (m : ℕ)
    {function : Fin n → SyncFunction} (attained : ∃ p, (function p).syncs = m)
    (least : ∀ p, m ≤ (function p).syncs) {runtime : Fin n → Interface n}
    (fresh : Fresh runtime) :
    ∃ body : List (Fin n → Collective n), (∀ p, Collective.kinds p body = Process.voteKinds n m) ∧
      (∀ p, Collective.aborts p body ≤ 1) ∧
      ∀ rounds values, Executes (fun p => (function p).runAndFinish p (task p) (runtime p))
          rounds values ↔ Calm function m ∧ rounds = body ∧ values = outcome function m := by
  induction m generalizing function runtime with
  | zero =>
      have some : ∃ p, (function p).ended = true := by
        rcases attained with ⟨p, none⟩
        exact ⟨p, ended_iff.mpr none⟩
      rcases lastVote_iff task fresh some with ⟨vote, kinds, aborts, continues⟩
      refine ⟨vote, fun p => by rw [kinds p]; rfl, aborts, fun rounds values => ?_⟩
      rw [continues]
      by_cases calm : Calm function 0
      · simp only [fun p => afterVote_eq (calm p), Executes.done_iff]
        constructor
        · rintro ⟨_, rfl, rfl, ended⟩
          exact ⟨calm, List.append_nil _, ended⟩
        · rintro ⟨_, rfl, ended⟩
          exact ⟨[], (List.append_nil _).symm, rfl, ended⟩
      · apply iff_of_false
        · rintro ⟨later, _, execution⟩
          rw [Calm, not_forall] at calm
          rcases calm with ⟨p, throws⟩
          rw [Classical.not_imp, Bool.not_eq_false] at throws
          exact Executes.not_of_fault p (afterVote_fault throws.1 throws.2 _) execution
        · exact fun both => calm both.1
  | succ m ih =>
      have syncing : ∀ p, ∃ next, function p = .sync next := by
        intro p
        have positive := (Nat.succ_pos m).trans_le (least p)
        cases known : function p with
        | returns => rw [known] at positive; exact absurd positive (Nat.lt_irrefl 0)
        | throws => rw [known] at positive; exact absurd positive (Nat.lt_irrefl 0)
        | sync next => exact ⟨next, rfl⟩
      choose next same using syncing
      have isSync : function = fun p => .sync (next p) := funext same
      subst isSync
      rcases superstep_iff task fresh next with
        ⟨first, after, firstKinds, firstAborts, freshAfter, continues⟩
      have attainedAfter : ∃ p, (next p .success).syncs = m := by
        rcases attained with ⟨p, atLeast⟩
        exact ⟨p, Nat.succ.inj atLeast⟩
      rcases ih attainedAfter (fun p => Nat.le_of_succ_le_succ (least p)) freshAfter with
        ⟨body, bodyKinds, bodyAborts, ends⟩
      have sameCalm : Calm (fun p => .sync (next p)) (m + 1) ↔
          Calm (fun p => next p .success) m := by
        simp only [Calm, syncs, Nat.add_lt_add_iff_right]
        rfl
      have sameOutcome : outcome (fun p => .sync (next p)) (m + 1) =
          outcome (fun p => next p .success) m := by
        funext p
        simp only [outcome, syncs, Nat.add_lt_add_iff_right]
        rfl
      refine ⟨first ++ body, fun p => ?_, fun p => ?_, fun rounds values => ?_⟩
      · rw [Collective.kinds_append, firstKinds p, bodyKinds p]
        simp [Process.voteKinds, List.replicate_succ]
      · rw [Collective.aborts_append, firstAborts p, Nat.zero_add]
        exact bodyAborts p
      · rw [continues, sameCalm, sameOutcome]
        constructor
        · rintro ⟨later, rfl, execution⟩
          rcases (ends _ _).mp execution with ⟨calm, rfl, rfl⟩
          exact ⟨calm, rfl, rfl⟩
        · rintro ⟨calm, rfl, rfl⟩
          exact ⟨body, rfl, (ends _ _).mpr ⟨calm, rfl, rfl⟩⟩

/-- The hooks of all processes end, all of them after the same collectives; each process aborts
at most once, in a context that has not aborted; and if some function throws or some process syncs
less often than another, every hook fails. -/
def VotesMatch (task : Fin n → Task) (memRange : Fin n → ℕ) (device : Fin n → Device n)
    (function : Fin n → SyncFunction) : Prop :=
  ∃ rounds results, Executes
      (fun p => (function p).hook p (task p) (memRange p) (device p)) rounds results ∧
    (∀ p q, Collective.kinds p rounds = Collective.kinds q rounds) ∧
    (∀ p, Collective.aborts p rounds ≤ 1) ∧
    ((∃ p, (results p).2 = none ∨ ∃ q, (function p).syncs < (function q).syncs) →
      ∀ p, (results p).1 = .ok .fatal)

theorem hook_executes_iff [Nonempty (Fin n)] (task : Fin n → Task) (memRange : Fin n → ℕ)
    (device : Fin n → Device n) {function : Fin n → SyncFunction} {m : ℕ}
    (attained : ∃ p, (function p).syncs = m) (least : ∀ p, m ≤ (function p).syncs) :
    ∃ body : List (Fin n → Collective n),
      (∀ p, Collective.kinds p body = Process.prologueKinds ++ Process.voteKinds n m) ∧
      (∀ p, Collective.aborts p body ≤ 1) ∧
      ∀ rounds values, Executes
          (fun p => (function p).hook p (task p) (memRange p) (device p)) rounds values ↔
        Calm function m ∧ rounds = body ∧ values = outcome function m := by
  have fresh : Fresh fun p : Fin n => ⟨.initial (device p), 0⟩ :=
    fun p => Process.atRest_begin (device p)
  rcases runAndFinish_executes_iff task m attained least fresh with ⟨body, kinds, aborts, ends⟩
  refine ⟨(fun p => .allreduceMax (memRange p)) :: (fun _ => .allreduceOr false) ::
    (fun _ => .barrier) :: body, fun p => ?_, aborts, fun rounds values => ?_⟩
  · rw [← kinds p]
    rfl
  · have begins : ∀ rounds values, Executes
        (fun p => (function p).hook p (task p) (memRange p) (device p)) rounds values ↔ _ :=
      fun rounds values => Process.hook_executes_iff
    rw [begins]
    constructor
    · rintro ⟨later, rfl, execution⟩
      rcases (ends _ _).mp execution with ⟨calm, rfl, rfl⟩
      exact ⟨calm, rfl, rfl⟩
    · rintro ⟨calm, rfl, rfl⟩
      exact ⟨body, rfl, (ends _ _).mpr ⟨calm, rfl, rfl⟩⟩

/-- With `m` the least number of syncs, the votes match and a failure at one process fails the hooks
of all exactly if no process throws once its sync has told it of an abort and, in case all sync
equally often, either all functions throw or none does. -/
theorem votesMatch_iff (task : Fin n → Task) (memRange : Fin n → ℕ) (device : Fin n → Device n)
    {function : Fin n → SyncFunction} {m : ℕ} (attained : ∃ p, (function p).syncs = m)
    (least : ∀ p, m ≤ (function p).syncs) :
    VotesMatch task memRange device function ↔
      (∀ p, m < (function p).syncs → (function p).throwsAfter m = false) ∧
      ((∀ p, (function p).syncs = m) →
        ∀ p q, (function p).throwsAfter m = (function q).throwsAfter m) := by
  have : Nonempty (Fin n) := attained.nonempty
  rcases hook_executes_iff task memRange device attained least with ⟨body, kinds, aborts, ends⟩
  constructor
  · rintro ⟨rounds, results, execution, _, _, fails⟩
    rcases (ends _ _).mp execution with ⟨calm, _, rfl⟩
    refine ⟨calm, fun even p q => ?_⟩
    have noMore : ¬∃ q, m < (function q).syncs := by
      rintro ⟨q, more⟩
      exact absurd (even q) (Nat.ne_of_gt more)
    -- a process that throws makes the hook of a process that returns fail
    have both : ∀ p q, (function p).throwsAfter m = true → (function q).throwsAfter m = true := by
      intro p q throws
      have failed := fails ⟨p, Or.inl (if_pos throws)⟩ q
      by_contra returns
      rw [Bool.not_eq_true] at returns
      simp [outcome, returns, noMore] at failed
    exact Bool.eq_iff_iff.mpr ⟨both p q, both q p⟩
  · rintro ⟨calm, alike⟩
    have execution := (ends body (outcome function m)).mpr ⟨calm, rfl, rfl⟩
    refine ⟨body, outcome function m, execution, fun p q => by rw [kinds p, kinds q], aborts, ?_⟩
    rintro ⟨p, failing⟩ q
    have fatal : (function q).throwsAfter m = true ∨ ∃ q, m < (function q).syncs := by
      by_cases more : ∃ q, m < (function q).syncs
      · exact Or.inr more
      · left
        have even : ∀ p, (function p).syncs = m := fun p =>
          Nat.le_antisymm (Nat.le_of_not_lt fun less => more ⟨p, less⟩) (least p)
        rcases failing with thrown | ⟨r, fewer⟩
        · rw [← alike even p q]
          by_contra returns
          simp only [outcome, if_neg returns] at thrown
          cases thrown
        · rw [even p, even r] at fewer
          exact absurd fewer (Nat.lt_irrefl m)
    simp only [outcome, if_pos fatal]

/-- The first process throws at once, the second one syncs and then returns. -/
theorem votesMatch_two :
    VotesMatch (fun _ : Fin 2 => 0) (fun _ => 1) (fun _ => .generous 2)
      ![.throws, .sync fun _ => .returns] := by
  have attained : ∃ p, ((![.throws, .sync fun _ => .returns] : Fin 2 → SyncFunction) p).syncs = 0 :=
    ⟨0, rfl⟩
  apply (votesMatch_iff _ _ _ attained fun p => Nat.zero_le _).mpr
  refine ⟨?_, fun even => ?_⟩
  · decide
  · exact absurd (even 1) (by decide)

/-- The second process throws because its sync has failed. -/
def lateThrow : Fin 2 → SyncFunction :=
  ![.returns, .sync fun code => if code = .success then .returns else .throws]

/-- The first process throws when the second one returns. -/
def lastThrow : Fin 2 → SyncFunction := ![.throws, .returns]

theorem not_votesMatch_two :
    ¬VotesMatch (fun _ => 0) (fun _ => 1) (fun _ => .generous 2) lateThrow ∧
      ¬VotesMatch (fun _ => 0) (fun _ => 1) (fun _ => .generous 2) lastThrow := by
  constructor
  · rintro ⟨rounds, results, execution, _⟩
    have attained : ∃ p, (lateThrow p).syncs = 0 := ⟨0, rfl⟩
    rcases hook_executes_iff _ _ _ attained fun p => Nat.zero_le _ with ⟨_, _, _, ends⟩
    have calm := ((ends _ _).mp execution).1 1 (by decide)
    exact absurd calm (by decide)
  · rintro ⟨rounds, results, execution, _, _, fails⟩
    have attained : ∃ p, (lastThrow p).syncs = 0 := ⟨0, rfl⟩
    rcases hook_executes_iff _ _ _ attained fun p => Nat.zero_le _ with ⟨_, _, _, ends⟩
    rcases (ends _ _).mp execution with ⟨_, _, rfl⟩
    have failed := fails ⟨0, Or.inl rfl⟩ 1
    exact absurd failed (by decide)

end SyncFunction

end Talpf
