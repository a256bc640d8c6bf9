import Talpf.Interface.Sorting

/-!
# Early exit with pending work

The collectives that register pending areas come before the vote of a sync, and
those that reconnect queue pairs after it.  So an early exit is noticed by all
processes exactly if up to the vote that reveals it they have equally many areas
to register at each sync and resize in the same supersteps.
-/

namespace Talpf

open Spmd

variable {n : ℕ}

namespace Script

/-- How many areas each sync has to register, and the abort that follows the last one. -/
def pendings (last : List Request) : List (List Request) → List Bool → List ℕ
  | [], flags => [(last.foldl Request.waiting flags).count true]
  | requests :: supersteps, flags =>
      (requests.foldl Request.waiting flags).count true ::
        pendings last supersteps ((requests.foldl Request.waiting flags).map fun _ => false)

/-- In which supersteps there is a resize. -/
def resizes (supersteps : List (List Request)) : List Bool :=
  supersteps.map fun requests => requests.any Request.isResize

/-- The calls of a script fulfil the contract of their caller.  The constructor of the queue has
reserved one slot, but nothing may be registered before the memory register has been resized. -/
def Accepted (maxMr : ℕ) (script : Script) : Prop :=
  ((script.supersteps.flatten ++ script.last).foldlM (Request.allow maxMr) ⟨1, [], []⟩).isSome

instance (maxMr : ℕ) (script : Script) : Decidable (script.Accepted maxMr) :=
  inferInstanceAs (Decidable (_ = true))

/-- Up to the `m`-th superstep the processes resize together, and up to the sync or abort that
ends it they have equally many areas to register at each sync. -/
def Compatible (m : ℕ) (script : Fin n → Script) (flags : Fin n → List Bool) : Prop :=
  ∀ p q, (pendings (script p).last (script p).supersteps (flags p)).take (m + 1) =
      (pendings (script q).last (script q).supersteps (flags q)).take (m + 1) ∧
    (resizes (script p).supersteps).take m = (resizes (script q).supersteps).take m

instance (m : ℕ) (script : Fin n → Script) (flags : Fin n → List Bool) :
    Decidable (Compatible m script flags) :=
  inferInstanceAs (Decidable (∀ _ _, _ ∧ _))

/-- What the next sync, or the abort, has to register. -/
def found (script : Script) (flags : List Bool) : List Bool :=
  (Caller.upcoming script).foldl Request.waiting flags

theorem compatible_zero {script : Fin n → Script} {flags : Fin n → List Bool} :
    Compatible 0 script flags ↔
      ∀ p q, (found (script p) (flags p)).count true = (found (script q) (flags q)).count true := by
  have first : ∀ p, (pendings (script p).last (script p).supersteps (flags p)).take (0 + 1) =
      [(found (script p) (flags p)).count true] := by
    intro p
    simp only [found, Caller.upcoming]
    cases (script p).supersteps with
    | nil => rfl
    | cons requests supersteps => rfl
  simp [Compatible, first]

/-- The first superstep of scripts that all have one. -/
theorem exists_cons {script : Fin n → Script} (nonempty : ∀ p, 0 < (script p).supersteps.length) :
    ∃ (requests : Fin n → List Request) (supersteps : Fin n → List (List Request))
      (last : Fin n → List Request), script = fun p => ⟨requests p :: supersteps p, last p⟩ := by
  choose requests supersteps split using fun p => List.exists_cons_of_length_pos (nonempty p)
  refine ⟨requests, supersteps, fun p => (script p).last, funext fun p => ?_⟩
  rw [← split p]

theorem compatible_succ {m : ℕ} {requests last : Fin n → List Request}
    {rest : Fin n → List (List Request)} {flags : Fin n → List Bool} :
    Compatible (m + 1) (fun p => ⟨requests p :: rest p, last p⟩) flags ↔
      (∀ p q, ((requests p).foldl Request.waiting (flags p)).count true =
        ((requests q).foldl Request.waiting (flags q)).count true) ∧
      (∀ p q, (requests p).any Request.isResize = (requests q).any Request.isResize) ∧
      Compatible m (fun p => ⟨rest p, last p⟩)
        (fun p => ((requests p).foldl Request.waiting (flags p)).map fun _ => false) := by
  simp only [Compatible, pendings, resizes, List.map_cons, List.take_succ_cons, List.cons.injEq]
  constructor
  · intro same
    exact ⟨fun p q => (same p q).1.1, fun p q => (same p q).2.1,
      fun p q => ⟨(same p q).1.2, (same p q).2.2⟩⟩
  · rintro ⟨counts, resizes, rest⟩ p q
    exact ⟨⟨counts p q, (rest p q).1⟩, resizes p q, (rest p q).2⟩

end Script

section Lockstep

variable {device : Fin n → Device n} {shared : Fin n → Shared n} {ledger : Fin n → Ledger}
  {flags : Fin n → List Bool} {resized : Fin n → Bool} {caller : Fin n → Caller n}
  {task : Fin n → Task}

/-- Equally many pending areas are registered together. -/
theorem memory_syncs (grants : ∀ p, (device p).Grants)
    (prepared : ∀ p, Prepared p (device p) (shared p) (ledger p) (flags p) (resized p) (caller p))
    {count : ℕ} (counts : ∀ p, (flags p).count true = count) :
    ∃ (rounds : List (Fin n → Collective n)) (reached : Fin n → MemoryTable × IBVerbs n)
      (sharedAfter : Fin n → Shared n),
      Executes (fun p => (caller p).queue.memreg.sync (caller p).queue.ibverbs) rounds
        (fun p => (reached p, none)) ∧
      ∀ p, Prepared p (device p) (sharedAfter p) (ledger p) ((flags p).map fun _ => false)
        (resized p) ((caller p).withQueue ((caller p).queue.withMemory (reached p))) := by
  have lengths : ∀ p, (shared p).pending.length = count := fun p =>
    (prepared p).waits.length_pending.trans (counts p)
  rcases MemoryTable.sync_cases lengths (fun p => (prepared p).consistent.realises) with
    ⟨rounds, table, verbs, boards, _, execution, after⟩ | ⟨refused, _⟩
  · refine ⟨rounds, fun p => (table p, verbs p),
      fun p => ⟨(shared p).layout.attachAll (shared p).pending boards, [], (shared p).keys⟩,
      execution, fun p => ?_⟩
    rcases after p with ⟨realises, exchanged⟩
    have consistent := (prepared p).consistent.sync realises exchanged
    have frame : IBVerbs.SameButMemory (caller p).queue.ibverbs (verbs p) := exchanged.sameVerbs
    have before := prepared p
    refine ⟨consistent, before.waits.clear, before.later.trans frame.later,
      (congrArg (fun verbs => verbs.syncRequest.isActive) frame).trans before.idle,
      (congrArg IBVerbs.syncCached frame).trans before.notCached, before.isResized,
      fun isResized peer => ?_, fun notResized => ?_, before.bounded⟩
    · rw [← before.staged isResized peer]
      exact congrArg (fun verbs => (verbs.stagedQps peer).isSome) frame
    · exact (congrArg IBVerbs.stagedQps frame).trans (before.unstaged notResized)
  · exact absurd (fun p => (prepared p).consistent.answers.mpr (grants p).regMr) refused

/-- With different numbers of pending areas some process votes while another one registers. -/
theorem not_executes_pending {α : Type} (grants : ∀ p, (device p).Grants)
    (prepared : ∀ p, Prepared p (device p) (shared p) (ledger p) (flags p) (resized p) (caller p))
    {p q : Fin n} (differ : (flags q).count true ≠ (flags p).count true) {abort : Fin n → Bool}
    {nexts : Fin n → MessageQueue n × Except Exn Int → Comm n α}
    {rounds : List (Fin n → Collective n)} {values : Fin n → α} :
    ¬Executes (fun p => ((caller p).queue.sync p (task p) (abort p) .default).bind (nexts p))
      rounds values := by
  simp only [MessageQueue.sync, Program.bind_assoc]
  have lengths : (shared q).pending.length ≠ (shared p).pending.length := by
    rwa [(prepared q).waits.length_pending, (prepared p).waits.length_pending]
  refine MemoryTable.not_executes_sync ?_ (fun p => (prepared p).consistent.realises)
    (fun p => (prepared p).consistent.answers.mpr (grants p).regMr) lengths
  intro r table verbs
  simp only [MessageQueue.syncVerbs, IBVerbs.sync, if_pos SyncAttr.mode_default,
    Program.call_bind]
  exact ⟨.iallreduceSum _, _, rfl, by simp [Collective.kind]⟩

/-- After a successful sync nothing has to be reconnected. -/
theorem Prepared.concluded {pid : Fin n} {device : Device n} {shared : Shared n} {ledger : Ledger}
    {flags : List Bool} {resized : Bool} {caller : Caller n}
    (prepared : Prepared pid device shared ledger flags resized caller) {ibverbs : IBVerbs n}
    (sameMemreg : ibverbs.memreg = caller.queue.ibverbs.memreg)
    (later : caller.queue.ibverbs.device.Later ibverbs.device)
    (idle : ibverbs.syncRequest.isActive = false) (notCached : ibverbs.syncCached = false)
    (unstaged : ibverbs.stagedQps = fun _ => none) :
    Prepared pid device shared ledger flags false
      (caller.withQueue (caller.queue.accepted ibverbs)) where
  consistent := prepared.consistent.of_sameMemory sameMemreg later.sameRegMr later.sameMaxMr
  waits := prepared.waits
  later := prepared.later.trans later
  idle := idle
  notCached := notCached
  isResized := rfl
  staged isResized := by cases isResized
  unstaged _ := unstaged
  bounded := prepared.bounded

/-- Processes of which all or none have resized get through the rest of a sync. -/
theorem votes_succeed (task : Fin n → Task) (grants : ∀ p, (device p).Grants)
    (prepared : ∀ p, Prepared p (device p) (shared p) (ledger p) (flags p) (resized p) (caller p))
    {together : Bool} (agree : ∀ p, resized p = together) :
    ∃ (first second : List (Fin n → Collective n)) (ended completed : Fin n → MessageQueue n),
      Executes (fun p => MessageQueue.syncVerbs p (task p) (caller p).queue false .default) first
        (fun p => (ended p, .ok 0)) ∧
      Executes (fun p => (ended p).completeRequest) second completed ∧
      ∀ p, Prepared p (device p) (shared p) (ledger p) (flags p) false
        ((caller p).withQueue (completed p)) := by
  have idle : ∀ p, (caller p).queue.ibverbs.syncRequest.isActive = false :=
    fun p => (prepared p).idle
  cases together with
  | false =>
      have unseen : SyncAttr.default.mode = .default → ∀ p, (caller p).queue.resized = false :=
        fun _ p => (prepared p).isResized.trans (agree p)
      have notCached : ∀ p q, (caller p).queue.ibverbs.syncCached =
          (caller q).queue.ibverbs.syncCached := fun p q =>
        (prepared p).notCached.trans (prepared q).notCached.symm
      rcases MessageQueue.syncVerbs_executes_plain task unseen (fun _ => notCached) idle with
        ⟨first, middle, _, voted, requested⟩
      rcases MessageQueue.completeRequest_executes
        (fun p => (caller p).queue.accepted (middle p)) requested with
        ⟨second, after, _, completes, same⟩
      refine ⟨first, second, _, _, voted, completes, fun p => ?_⟩
      rcases same p with ⟨idleAfter, cached, staged, _, memreg, sameDevice⟩
      have later : (caller p).queue.ibverbs.device.Later (after p).device := by
        rw [sameDevice.trans (requested p).sameDevice]
        rfl
      exact (prepared p).concluded (memreg.trans (requested p).sameMemreg) later idleAfter
        (cached.trans (requested p).cached)
        ((staged.trans (requested p).sameStaged).trans ((prepared p).unstaged (agree p)))
  | true =>
      cases n with
      | zero =>
          exact ⟨[], [], fun p => p.elim0, fun p => p.elim0, .done fun p => p.elim0,
            .done fun p => p.elim0, fun p => p.elim0⟩
      | succ n =>
          have resizes : ∃ p, (caller p).queue.resized = true :=
            ⟨0, (prepared 0).isResized.trans (agree 0)⟩
          have staged : ∀ p, (caller p).queue.ibverbs.Staged := fun p =>
            (prepared p).staged (agree p)
          rcases MessageQueue.syncVerbs_executes_resized task SyncAttr.mode_default resizes idle
            staged with ⟨first, reconnected, middle, _, _, voted, requested⟩ |
            ⟨_, _, _, refused, _⟩
          · rcases MessageQueue.completeRequest_executes
              (fun p => (caller p).queue.accepted (middle p)) (fun p => (requested p).2) with
              ⟨second, after, _, completes, same⟩
            refine ⟨first, second, _, _, voted, completes, fun p => ?_⟩
            rcases same p with ⟨idleAfter, cached, stagedAfter, _, memreg, sameDevice⟩
            rcases requested p with ⟨reconnects, request⟩
            have later : (caller p).queue.ibverbs.device.Later (after p).device := by
              rw [(sameDevice.trans request.sameDevice).trans reconnects.reconnects]
              rfl
            exact (prepared p).concluded
              ((memreg.trans request.sameMemreg).trans reconnects.sameMemreg) later idleAfter
              (cached.trans request.cached)
              ((stagedAfter.trans request.sameStaged).trans reconnects.staged)
          · exfalso
            apply refused
            intro p
            have granted := (prepared p).grants (grants p)
            exact ⟨granted.gid _, granted.exchangeFits _, granted.modifyQp _⟩

/-- A process that has not resized faults if another one has. -/
theorem not_executes_straggler {α : Type}
    (prepared : ∀ p, Prepared p (device p) (shared p) (ledger p) (flags p) (resized p) (caller p))
    {p q : Fin n} (resizes : resized p = true) (stays : resized q = false)
    {nexts : Fin n → MessageQueue n × Except Exn Int → Comm n α}
    {rounds : List (Fin n → Collective n)} {values : Fin n → α} :
    ¬Executes (fun p => (MessageQueue.syncVerbs p (task p) (caller p).queue false .default).bind
      (nexts p)) rounds values := by
  have unstaged : (caller q).queue.ibverbs.stagedQps ⟨0, q.pos⟩ = none := by
    rw [(prepared q).unstaged stays]
  exact MessageQueue.not_executes_syncVerbs_unstaged task SyncAttr.mode_default
    ⟨p, (prepared p).isResized.trans resizes⟩ unstaged

/-- A process makes its next requests and then syncs or aborts. -/
theorem Prepared.upcoming {pid : Fin n} {device : Device n} {shared : Shared n} {ledger : Ledger}
    {flags : List Bool} {caller : Caller n} {script : Script}
    (prepared : Prepared pid device shared ledger flags false caller) (grants : device.Grants)
    (accepted : ∃ final, (script.supersteps.flatten ++ script.last).foldlM
      (Request.accept device.maxMr) ledger = some final) :
    ∃ sharedAfter ledgerAfter after,
      caller.makeAll pid (Caller.upcoming script) = some after ∧
      Prepared pid device sharedAfter ledgerAfter (script.found flags)
        ((Caller.upcoming script).any Request.isResize) after ∧
      (Caller.exits script = false → ∃ final,
        (script.supersteps.tail.flatten ++ script.last).foldlM (Request.accept device.maxMr)
          ledgerAfter = some final) := by
  rcases script with ⟨supersteps, last⟩
  rcases accepted with ⟨final, accepted⟩
  cases supersteps with
  | nil =>
      rcases prepared.makeAll grants accepted with ⟨_, after, made, ready⟩
      rw [Bool.false_or] at ready
      exact ⟨_, final, after, made, ready, fun syncs => by cases syncs⟩
  | cons requests supersteps =>
      simp only [List.flatten_cons, List.append_assoc, List.foldlM_append] at accepted
      rcases Option.bind_eq_some_iff.mp accepted with ⟨middle, first, rest⟩
      rcases prepared.makeAll grants first with ⟨_, after, made, ready⟩
      rw [Bool.false_or] at ready
      exact ⟨_, middle, after, made, ready, fun _ => ⟨final, by simpa using rest⟩⟩

/-- Then the rest of its program begins with the sync of the message queue. -/
theorem run_votes {pid : Fin n} (task : Task) {script : Script} {caller after : Caller n}
    (codes : List Err) (made : caller.makeAll pid (Caller.upcoming script) = some after)
    (running : after.runtime.aborted = 0) :
    ∃ next, ((caller.run pid task script.last script.supersteps codes).bind
        fun (runtime, result) => Process.finish pid task runtime result) =
      (after.queue.sync pid task (Caller.exits script) .default).bind next := by
  rcases script with ⟨supersteps, last⟩
  cases supersteps with
  | nil =>
      rcases Caller.run_exit task codes made running after.queue 0 with ⟨next, program, _⟩
      exact ⟨next, program⟩
  | cons requests supersteps =>
      have madeHere : caller.makeAll pid requests = some after := made
      simp only [Caller.run, madeHere, Interface.sync, if_pos running, Program.bind_assoc]
      exact ⟨_, rfl⟩

section Upcoming

variable {script : Fin n → Script} {after : Fin n → Caller n} (codes : Fin n → List Err)
  {rounds : List (Fin n → Collective n)}
  {values : Fin n → Except Exn Err × Option (List Err)}

/-- With different numbers of pending areas the processes do not get past the registration. -/
theorem not_executes_run (made : ∀ p, (caller p).makeAll p (Caller.upcoming (script p)) =
      some (after p)) (running : ∀ p, (after p).runtime.aborted = 0)
    (grants : ∀ p, (device p).Grants)
    (ready : ∀ p, Prepared p (device p) (shared p) (ledger p) (flags p) (resized p) (after p))
    (disagree : ¬∀ p q, (flags p).count true = (flags q).count true) :
    ¬Executes (fun p => ((caller p).run p (task p) (script p).last (script p).supersteps
        (codes p)).bind fun (runtime, result) => Process.finish p (task p) runtime result)
      rounds values := by
  choose next program using fun p => run_votes (task p) (codes p) (made p) (running p)
  rw [funext program]
  rcases not_forall.mp disagree with ⟨q, others⟩
  rcases not_forall.mp others with ⟨p, differ⟩
  exact not_executes_pending grants ready differ

/-- If some but not all processes have resized they do not get past the vote. -/
theorem not_executes_vote (made : ∀ p, (caller p).makeAll p (Caller.upcoming (script p)) =
      some (after p)) (running : ∀ p, (after p).runtime.aborted = 0)
    (syncs : ∀ p, Caller.exits (script p) = false) {registering : List (Fin n → Collective n)}
    {reached : Fin n → MemoryTable × IBVerbs n}
    (synced : Executes (fun p => (after p).queue.memreg.sync (after p).queue.ibverbs) registering
      (fun p => (reached p, none)))
    (known : ∀ p, Prepared p (device p) (shared p) (ledger p) (flags p) (resized p)
      ((after p).withQueue ((after p).queue.withMemory (reached p))))
    (apart : ¬∀ p q, resized p = resized q) :
    ¬Executes (fun p => ((caller p).run p (task p) (script p).last (script p).supersteps
        (codes p)).bind fun (runtime, result) => Process.finish p (task p) runtime result)
      rounds values := by
  intro execution
  rcases not_forall.mp apart with ⟨p, others⟩
  rcases not_forall.mp others with ⟨q, differ⟩
  have : Nonempty (Fin n) := ⟨p⟩
  choose next program using fun p => run_votes (task p) (codes p) (made p) (running p)
  simp only [syncs] at program
  rw [funext program] at execution
  rcases (MessageQueue.sync_bind_executes_iff task synced).mp execution with ⟨later, _, voted⟩
  cases resizes : resized p with
  | true =>
      rw [resizes] at differ
      exact not_executes_straggler known resizes
        (Bool.eq_false_iff.mpr fun same => differ same.symm) voted
  | false =>
      rw [resizes] at differ
      exact not_executes_straggler known
        (Bool.eq_true_of_not_eq_false fun same => differ same.symm) resizes voted

/-- If some process returns, all processes learn of it after they have registered equally many
areas. -/
theorem run_ends_pending (made : ∀ p, (caller p).makeAll p (Caller.upcoming (script p)) =
      some (after p)) (running : ∀ p, (after p).runtime.aborted = 0)
    (grants : ∀ p, (device p).Grants)
    (ready : ∀ p, Prepared p (device p) (shared p) (ledger p) (flags p) (resized p) (after p))
    (rest : ∀ p, Caller.exits (script p) = false → ∃ final,
      ((script p).supersteps.tail.flatten ++ (script p).last).foldlM
        (Request.accept (device p).maxMr) (ledger p) = some final)
    (exit : ∃ p, Caller.exits (script p) = true) {count : ℕ}
    (counts : ∀ p, (flags p).count true = count) :
    ∃ rounds, Executes (fun p => ((caller p).run p (task p) (script p).last
        (script p).supersteps (codes p)).bind
          fun (runtime, result) => Process.finish p (task p) runtime result) rounds
      (fun p => (.ok (if ∀ q, Caller.exits (script q) = true then .success else .fatal),
        some (codes p ++ List.replicate (script p).supersteps.length .fatal))) := by
  rcases memory_syncs grants ready counts with ⟨first, reached, _, synced, known⟩
  rcases MessageQueue.syncVerbs_executes_aborted task
    (fun p => (after p).queue.withMemory (reached p)) SyncAttr.mode_default exit with
    ⟨second, _, voted⟩
  have performs : ∀ (count : ℕ) (p : Fin n), Caller.exits (script p) = false →
      Caller.Performs p (script p).last (script p).supersteps.tail
        ((after p).notified ((after p).queue.withMemory (reached p)) count) := by
    intro count p syncs
    rcases rest p syncs with ⟨final, accepted⟩
    exact ((known p).notified count).performs (grants p) accepted
  exact ⟨first ++ second, Caller.run_ends codes made running rfl exit
    (MessageQueue.sync_executes task synced voted) (fun p => (known p).idle) (performs _)⟩

end Upcoming

end Lockstep

section Runs

variable {device : Fin n → Device n} (task : Fin n → Task) {shared : Fin n → Shared n}
  {ledger : Fin n → Ledger} {flags : Fin n → List Bool} {caller : Fin n → Caller n}

/-- A superstep in which equally many areas are registered, and in which all processes resize or
none does, is followed by the next one. -/
theorem run_superstep_pending [Nonempty (Fin n)] {resized : Fin n → Bool}
    {last requests : Fin n → List Request} {supersteps : Fin n → List (List Request)}
    {after : Fin n → Caller n} (codes : Fin n → List Err)
    (made : ∀ p, (caller p).makeAll p (requests p) = some (after p))
    (running : ∀ p, (after p).runtime.aborted = 0) (grants : ∀ p, (device p).Grants)
    (ready : ∀ p, Prepared p (device p) (shared p) (ledger p) (flags p) (resized p) (after p))
    {count : ℕ} (counts : ∀ p, (flags p).count true = count)
    {together : Bool} (agree : ∀ p, resized p = together) :
    ∃ (rounds : List (Fin n → Collective n)) (concluded : Fin n → Caller n)
      (sharedAfter : Fin n → Shared n),
      (∀ all values, Executes (fun p => ((caller p).run p (task p) (last p)
          (requests p :: supersteps p) (codes p)).bind
            fun (runtime, result) => Process.finish p (task p) runtime result) all values ↔
        ∃ later, all = rounds ++ later ∧
          Executes (fun p => ((concluded p).run p (task p) (last p) (supersteps p)
            (codes p ++ [.success])).bind
              fun (runtime, result) => Process.finish p (task p) runtime result) later values) ∧
      (∀ p, (concluded p).runtime.aborted = 0) ∧
      ∀ p, Prepared p (device p) (sharedAfter p) (ledger p) ((flags p).map fun _ => false) false
        (concluded p) := by
  rcases memory_syncs grants ready counts with ⟨first, reached, sharedAfter, synced, known⟩
  rcases votes_succeed task grants known agree with
    ⟨second, third, ended, completed, voted, completes, concluded⟩
  refine ⟨(first ++ second) ++ third, fun p => ((after p).withQueue
    ((after p).queue.withMemory (reached p))).withQueue (completed p), sharedAfter,
    fun all values => ?_, running, concluded⟩
  rw [Caller.run_superstep_iff made running (MessageQueue.sync_executes task synced voted)
    completes]
  simp only [List.append_assoc]
  rfl

/-- The processes of a run that gets to its end are compatible up to the first return. -/
theorem compatible_of_run (m : ℕ) {script : Fin n → Script} (codes : Fin n → List Err)
    (attained : ∃ p, (script p).supersteps.length = m)
    (least : ∀ p, m ≤ (script p).supersteps.length) (grants : ∀ p, (device p).Grants)
    (prepared : ∀ p, Prepared p (device p) (shared p) (ledger p) (flags p) false (caller p))
    (running : ∀ p, (caller p).runtime.aborted = 0)
    (accepted : ∀ p, ∃ final, ((script p).supersteps.flatten ++ (script p).last).foldlM
      (Request.accept (device p).maxMr) (ledger p) = some final)
    {rounds : List (Fin n → Collective n)} {values : Fin n → Except Exn Err × Option (List Err)}
    (execution : Executes (fun p => ((caller p).run p (task p) (script p).last
      (script p).supersteps (codes p)).bind
        fun (runtime, result) => Process.finish p (task p) runtime result) rounds values) :
    Script.Compatible m script flags := by
  have : Nonempty (Fin n) := attained.nonempty
  induction m generalizing script shared ledger flags caller codes rounds with
  | zero =>
      choose sharedMid ledgerMid after made ready rest using fun p =>
        (prepared p).upcoming (grants p) (accepted p)
      rw [Script.compatible_zero]
      by_contra disagree
      exact not_executes_run codes made
        (fun p => (Caller.aborted_makeAll (made p)).trans (running p)) grants ready disagree
        execution
  | succ m ih =>
      rcases Script.exists_cons fun p => (Nat.succ_pos m).trans_le (least p) with
        ⟨requests, supersteps, last, rfl⟩
      choose sharedMid ledgerMid after made ready rest using fun p =>
        (prepared p).upcoming (grants p) (accepted p)
      have runningAfter : ∀ p, (after p).runtime.aborted = 0 := fun p =>
        (Caller.aborted_makeAll (made p)).trans (running p)
      rcases attained with ⟨someone, syncs⟩
      rw [Script.compatible_succ]
      have agree : ∀ p q, ((requests p).foldl Request.waiting (flags p)).count true =
          ((requests q).foldl Request.waiting (flags q)).count true := by
        by_contra disagree
        exact not_executes_run codes made runningAfter grants ready disagree execution
      have together : ∀ p q, (requests p).any Request.isResize =
          (requests q).any Request.isResize := by
        rcases memory_syncs grants ready (fun p => agree p someone) with
          ⟨_, reached, _, synced, known⟩
        by_contra apart
        exact not_executes_vote codes made runningAfter (fun _ => rfl) synced known apart execution
      rcases run_superstep_pending task codes made runningAfter grants ready
        (fun p => agree p someone) (fun p => together p someone) with
        ⟨_, _, _, superstep, runningNext, concluded⟩
      rcases (superstep rounds values).mp execution with ⟨later, _, followed⟩
      let remaining : Fin n → Script := fun p => ⟨supersteps p, last p⟩
      have attainedNext : ∃ p, (remaining p).supersteps.length = m :=
        ⟨someone, Nat.succ.inj syncs⟩
      exact ⟨agree, together, ih _ attainedNext (fun p => Nat.le_of_succ_le_succ (least p))
        concluded runningNext (fun p => rest p rfl) followed⟩

/-- If the processes are compatible up to the first return, and not all return, the run gets to
its end and all hooks fail. -/
theorem run_of_compatible (m : ℕ) {script : Fin n → Script} (codes : Fin n → List Err)
    (attained : ∃ p, (script p).supersteps.length = m)
    (least : ∀ p, m ≤ (script p).supersteps.length)
    (longer : ∃ p, m < (script p).supersteps.length) (grants : ∀ p, (device p).Grants)
    (prepared : ∀ p, Prepared p (device p) (shared p) (ledger p) (flags p) false (caller p))
    (running : ∀ p, (caller p).runtime.aborted = 0)
    (accepted : ∀ p, ∃ final, ((script p).supersteps.flatten ++ (script p).last).foldlM
      (Request.accept (device p).maxMr) (ledger p) = some final)
    (compatible : Script.Compatible m script flags) :
    ∃ rounds values, Executes (fun p => ((caller p).run p (task p) (script p).last
      (script p).supersteps (codes p)).bind
        fun (runtime, result) => Process.finish p (task p) runtime result) rounds values ∧
      ∀ p, (values p).1 = .ok .fatal := by
  have : Nonempty (Fin n) := attained.nonempty
  induction m generalizing script shared ledger flags caller codes with
  | zero =>
      choose sharedMid ledgerMid after made ready rest using fun p =>
        (prepared p).upcoming (grants p) (accepted p)
      rcases attained with ⟨someone, none⟩
      have exit : Caller.exits (script someone) = true :=
        List.isEmpty_iff_length_eq_zero.mpr none
      rw [Script.compatible_zero] at compatible
      rcases run_ends_pending codes made
        (fun p => (Caller.aborted_makeAll (made p)).trans (running p)) grants ready rest
        ⟨someone, exit⟩ (fun p => compatible p someone) with ⟨rounds, execution⟩
      have notAll : ¬∀ q, Caller.exits (script q) = true := by
        intro all
        rcases longer with ⟨p, positive⟩
        have none := List.isEmpty_iff_length_eq_zero.mp (all p)
        omega
      refine ⟨rounds, _, execution, fun p => ?_⟩
      rw [if_neg notAll]
  | succ m ih =>
      rcases Script.exists_cons fun p => (Nat.succ_pos m).trans_le (least p) with
        ⟨requests, supersteps, last, rfl⟩
      choose sharedMid ledgerMid after made ready rest using fun p =>
        (prepared p).upcoming (grants p) (accepted p)
      rcases attained with ⟨someone, syncs⟩
      rw [Script.compatible_succ] at compatible
      rcases compatible with ⟨agree, together, same⟩
      rcases run_superstep_pending task codes made
        (fun p => (Caller.aborted_makeAll (made p)).trans (running p)) grants ready
        (fun p => agree p someone) (fun p => together p someone) with
        ⟨_, _, _, superstep, runningNext, concluded⟩
      let remaining : Fin n → Script := fun p => ⟨supersteps p, last p⟩
      have attainedNext : ∃ p, (remaining p).supersteps.length = m :=
        ⟨someone, Nat.succ.inj syncs⟩
      rcases ih (fun p => codes p ++ [.success]) attainedNext
        (fun p => Nat.le_of_succ_le_succ (least p))
        (longer.imp fun p => Nat.lt_of_succ_lt_succ) concluded runningNext (fun p => rest p rfl)
        same with ⟨later, values, execution, failed⟩
      exact ⟨_, values, (superstep _ values).mpr ⟨later, rfl, execution⟩, failed⟩

end Runs

namespace Process

variable {m : ℕ} (task : Fin n → Task) (memRange msgGrainPower : Fin n → ℕ)
  {device : Fin n → Device n} {script : Fin n → Script}

/-- The runs of whole hooks are those of the scripts after the setup. -/
theorem hookSorted_executes_iff [Nonempty (Fin n)] (grants : ∀ p, (device p).Grants)
    (accepted : ∀ p, (script p).Accepted (device p).maxMr)
    {values : Fin n → Except Exn Err × Option (List Err)} :
    (∃ rounds, Executes (fun p => hookSorted p (task p) (memRange p) (msgGrainPower p) (device p)
      (script p)) rounds values) ↔
    ∃ rounds, Executes (fun p => ((begin (device p)).run p (task p) (script p).last
      (script p).supersteps []).bind
        fun (runtime, result) => finish p (task p) runtime result) rounds values := by
  choose final admitted using fun p => Option.isSome_iff_exists.mp (accepted p)
  have same : (fun p => hookSorted p (task p) (memRange p) (msgGrainPower p) (device p)
      (script p)) = fun p => hookScript p (task p) (memRange p) (device p) (script p) :=
    funext fun p => hookSorted_eq p (task p) (memRange p) (msgGrainPower p)
      ((grants p).constructs p) (admitted p)
  rw [same]
  constructor
  · rintro ⟨rounds, execution⟩
    rcases hookScript_executes_iff.mp execution with ⟨later, _, ran⟩
    exact ⟨later, ran⟩
  · rintro ⟨later, ran⟩
    exact ⟨_, hookScript_executes_iff.mpr ⟨later, rfl, ran⟩⟩

/-- Some processes return after `m` syncs, others go on.  All processes take part in the same
collectives and all hooks fail if and only if up to that point the processes have registered
equally many areas at every sync and have resized in the same supersteps. -/
theorem pendingExit_detected_iff (attained : ∃ p, (script p).supersteps.length = m)
    (least : ∀ p, m ≤ (script p).supersteps.length)
    (longer : ∃ p, m < (script p).supersteps.length) (grants : ∀ p, (device p).Grants)
    (accepted : ∀ p, (script p).Accepted (device p).maxMr) :
    (∃ rounds values,
      Executes (fun p => hookSorted p (task p) (memRange p) (msgGrainPower p) (device p)
        (script p)) rounds values ∧
      (∀ p q, Collective.kinds p rounds = Collective.kinds q rounds) ∧
      ∀ p, (values p).1 = .ok .fatal) ↔
    Script.Compatible m script fun _ => [] := by
  have : Nonempty (Fin n) := attained.nonempty
  have runs : ∀ values, _ := fun values =>
    @hookSorted_executes_iff n task memRange msgGrainPower device script _ grants accepted values
  choose shared prepared using fun p => Prepared.initial p (grants p)
  have calls : ∀ p, ∃ final, ((script p).supersteps.flatten ++ (script p).last).foldlM
      (Request.accept (device p).maxMr) ⟨1, [], []⟩ = some final := fun p =>
    (Option.isSome_iff_exists.mp (accepted p)).imp fun _ => Request.accept_of_allow
  constructor
  · rintro ⟨rounds, values, execution, _⟩
    rcases (runs values).mp ⟨rounds, execution⟩ with ⟨_, ran⟩
    exact compatible_of_run task m _ attained least grants prepared (fun _ => rfl) calls ran
  · intro compatible
    rcases run_of_compatible task m (fun _ => []) attained least longer grants prepared
      (fun _ => rfl) calls compatible with ⟨_, values, ran, failed⟩
    rcases (runs values).mpr ⟨_, ran⟩ with ⟨rounds, execution⟩
    exact ⟨rounds, values, execution, Comm.kinds_eq execution, failed⟩

theorem grants_generous (n : ℕ) : (Device.generous n).Grants :=
  ⟨fun _ => rfl, fun _ => ⟨rfl, rfl⟩, fun _ => rfl, fun _ => rfl, fun _ _ => rfl,
    Nat.one_le_two_pow⟩

/-- Both processes resize and register an area, and one of them goes on after the first sync. -/
def jointWork : Fin 2 → Script :=
  ![⟨[[.resizeMemreg 2, .registerGlobal 100 8]], []⟩,
    ⟨[[.resizeMemreg 1, .registerGlobal 200 16, .resizeMesgQueue 4], []], []⟩]

theorem pendingExit_detected_jointWork :
    ∃ rounds values,
      Executes (fun p => hookSorted p 0 1 4 (.generous 2) (jointWork p)) rounds values ∧
      (∀ p q, Collective.kinds p rounds = Collective.kinds q rounds) ∧
      ∀ p, (values p).1 = .ok .fatal := by
  have attained : ∃ p, (jointWork p).supersteps.length = 1 := ⟨0, rfl⟩
  have least : ∀ p, 1 ≤ (jointWork p).supersteps.length := by decide
  have longer : ∃ p, 1 < (jointWork p).supersteps.length := ⟨1, by decide⟩
  have accepted : ∀ p, (jointWork p).Accepted (Device.generous 2).maxMr := by decide
  exact (pendingExit_detected_iff (fun _ => 0) (fun _ => 1) (fun _ => 4) attained least longer
    (fun _ => grants_generous 2) accepted).mpr (by decide)

/-- Both processes resize the memory register and sync.  Then the first one returns, and the
second one registers an area and syncs. -/
def pendingWork : Fin 2 → Script :=
  ![⟨[[.resizeMemreg 1]], []⟩, ⟨[[.resizeMemreg 1], [.registerGlobal 100 8]], []⟩]

/-- The abort of the first process meets the registration of the second one. -/
theorem pendingWork_mispaired :
    (∀ p, (pendingWork p).Accepted (Device.generous 2).maxMr) ∧
      ¬∃ rounds values,
        Executes (fun p => hookSorted p 0 1 4 (.generous 2) (pendingWork p)) rounds values := by
  have attained : ∃ p, (pendingWork p).supersteps.length = 1 := ⟨0, rfl⟩
  have least : ∀ p, 1 ≤ (pendingWork p).supersteps.length := by decide
  have accepted : ∀ p, (pendingWork p).Accepted (Device.generous 2).maxMr := by decide
  refine ⟨accepted, ?_⟩
  rintro ⟨rounds, values, execution⟩
  rcases (hookSorted_executes_iff (fun _ => 0) (fun _ => 1) (fun _ => 4)
    (fun _ => grants_generous 2) accepted).mp ⟨rounds, execution⟩ with ⟨_, ran⟩
  choose shared prepared using fun p : Fin 2 => Prepared.initial p (grants_generous 2)
  have same := compatible_of_run (fun _ => 0) 1 (fun _ => []) attained least
    (fun _ => grants_generous 2) prepared (fun _ => rfl)
    (fun p => (Option.isSome_iff_exists.mp (accepted p)).imp fun _ => Request.accept_of_allow) ran
  exact absurd same (by decide)

end Process

end Talpf
