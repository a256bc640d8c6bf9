import Mathlib.Data.List.Basic

/-!
# Single-program-multiple-data programs over collective operations

A process of a message-passing program alternates between private computation
and collective operations in which all processes of a communicator take part.
`Program` is the tree of one process: it may finish, call a collective and
continue with its result, or fault (a failed assertion or undefined behaviour).
`Executes` runs one program for each rank in lockstep: a round takes place only
if every rank calls a collective and the calls match.  A process that calls
while another has finished, and calls that do not match, have no execution:
that is a deadlock or a mispaired collective.
-/

namespace Spmd

universe u

/-- The collective operations of a communicator with the given ranks. -/
structure Network (Rank : Type) where
  /-- An operation together with what its caller contributes. -/
  Op : Type
  /-- What the operation returns to its caller. -/
  Result : Op → Type
  /-- The calls of all ranks belong to the same collective. -/
  Matching : (Rank → Op) → Prop
  /-- What each rank receives. -/
  outcome : (ops : Rank → Op) → (rank : Rank) → Result (ops rank)

variable {Rank : Type} {net : Network Rank} {α β γ : Type}

/-- The program of one process. -/
inductive Program (net : Network Rank) (α : Type) where
  | done (value : α)
  | call (op : net.Op) (next : net.Result op → Program net α)
  | fault

namespace Program

/-- Sequential composition. -/
def bind : Program net α → (α → Program net β) → Program net β
  | .done value, next => next value
  | .call op rest, next => .call op (fun result => (rest result).bind next)
  | .fault, _ => .fault

@[simp]
theorem done_bind (value : α) (next : α → Program net β) :
    (Program.done value).bind next = next value := rfl

@[simp]
theorem call_bind (op : net.Op) (rest : net.Result op → Program net α)
    (next : α → Program net β) :
    (Program.call op rest).bind next = .call op (fun result => (rest result).bind next) := rfl

@[simp]
theorem fault_bind (next : α → Program net β) : (Program.fault).bind next = .fault := rfl

theorem bind_assoc (program : Program net α) (first : α → Program net β)
    (second : β → Program net γ) :
    (program.bind first).bind second = program.bind (fun value => (first value).bind second) := by
  induction program with
  | done value => rfl
  | call op rest ih => simp only [call_bind, ih]
  | fault => rfl

variable {ε : Type}

/-- Go on with what a program returns, unless it has thrown an exception. -/
def andThen (program : Program net (Except ε α)) (next : α → Program net (Except ε β)) :
    Program net (Except ε β) :=
  program.bind fun result =>
    match result with
    | .error exn => .done (.error exn)
    | .ok value => next value

end Program

/-- A lockstep execution: the rounds of collective calls that take place and the final values. -/
inductive Executes : (Rank → Program net α) → List (Rank → net.Op) → (Rank → α) → Prop where
  | done {programs : Rank → Program net α} {values : Rank → α}
      (finished : ∀ rank, programs rank = .done (values rank)) :
      Executes programs [] values
  | round {programs : Rank → Program net α} {ops : Rank → net.Op}
      {nexts : ∀ rank, net.Result (ops rank) → Program net α}
      {rounds : List (Rank → net.Op)} {values : Rank → α}
      (called : ∀ rank, programs rank = .call (ops rank) (nexts rank))
      (matching : net.Matching ops)
      (rest : Executes (fun rank => nexts rank (net.outcome ops rank)) rounds values) :
      Executes programs (ops :: rounds) values

namespace Executes

theorem of_done (values : Rank → α) :
    Executes (fun rank => (.done (values rank) : Program net α)) [] values :=
  .done fun _ => rfl

theorem of_call {ops : Rank → net.Op} {nexts : ∀ rank, net.Result (ops rank) → Program net α}
    {rounds : List (Rank → net.Op)} {values : Rank → α} (matching : net.Matching ops)
    (rest : Executes (fun rank => nexts rank (net.outcome ops rank)) rounds values) :
    Executes (fun rank => .call (ops rank) (nexts rank)) (ops :: rounds) values :=
  .round (fun _ => rfl) matching rest

/-- Executions compose along sequential composition. -/
theorem bind {programs : Rank → Program net α} {nexts : Rank → α → Program net β}
    {first second : List (Rank → net.Op)} {middle : Rank → α} {values : Rank → β}
    (head : Executes programs first middle)
    (tail : Executes (fun rank => nexts rank (middle rank)) second values) :
    Executes (fun rank => (programs rank).bind (nexts rank)) (first ++ second) values := by
  induction head with
  | done finished => simpa [finished] using tail
  | @round programs ops rests _ _ called matching _ ih =>
      have calledBind : ∀ rank, (programs rank).bind (nexts rank) =
          .call (ops rank) (fun result => (rests rank result).bind (nexts rank)) := by
        intro rank
        rw [called rank, Program.call_bind]
      exact .round calledBind matching (ih tail)

/-- Programs that all return a value go on together. -/
theorem andThen {ε : Type} {programs : Rank → Program net (Except ε α)}
    {nexts : Rank → α → Program net (Except ε β)} {first second : List (Rank → net.Op)}
    {middle : Rank → α} {values : Rank → Except ε β}
    (head : Executes programs first fun rank => .ok (middle rank))
    (tail : Executes (fun rank => nexts rank (middle rank)) second values) :
    Executes (fun rank => (programs rank).andThen (nexts rank)) (first ++ second) values :=
  head.bind tail

/-- A process that has finished leaves a process that still calls waiting. -/
theorem not_of_done_call {programs : Rank → Program net α} {rounds : List (Rank → net.Op)}
    {values : Rank → α} {finished calling : Rank} {value : α} {op : net.Op}
    {next : net.Result op → Program net α} (atEnd : programs finished = .done value)
    (atCall : programs calling = .call op next) : ¬Executes programs rounds values := by
  intro execution
  cases execution with
  | done all => simpa [atCall] using all calling
  | round all => simpa [atEnd] using all finished

/-- No execution passes a fault. -/
theorem not_of_fault {programs : Rank → Program net α} {rounds : List (Rank → net.Op)}
    {values : Rank → α} (rank : Rank) (faulty : programs rank = .fault) :
    ¬Executes programs rounds values := by
  intro execution
  cases execution with
  | done all => simpa [faulty] using all rank
  | round all => simpa [faulty] using all rank

section Nonempty

variable [Nonempty Rank]

/-- Finished processes take part in nothing more. -/
theorem done_iff {final values : Rank → α} {rounds : List (Rank → net.Op)} :
    Executes (fun rank => (.done (final rank) : Program net α)) rounds values ↔
      rounds = [] ∧ values = final := by
  constructor
  · intro execution
    cases execution with
    | done finished =>
        refine ⟨rfl, funext fun rank => ?_⟩
        simpa using (finished rank).symm
    | round called => cases called (Classical.arbitrary Rank)
  · rintro ⟨rfl, rfl⟩
    exact .of_done _

/-- When every rank calls, the calls match and the execution goes on from the results. -/
theorem call_iff {ops : Rank → net.Op} {nexts : ∀ rank, net.Result (ops rank) → Program net α}
    {rounds : List (Rank → net.Op)} {values : Rank → α} :
    Executes (fun rank => .call (ops rank) (nexts rank)) rounds values ↔
      net.Matching ops ∧ ∃ later, rounds = ops :: later ∧
        Executes (fun rank => nexts rank (net.outcome ops rank)) later values := by
  constructor
  · intro execution
    cases execution with
    | done finished => cases finished (Classical.arbitrary Rank)
    | @round _ ops' nexts' _ _ called matching rest =>
        have sameOps : ops' = ops := funext fun rank => by
          have := called rank
          simp only [Program.call.injEq] at this
          exact this.1.symm
        subst sameOps
        have sameNexts : nexts' = nexts := funext fun rank => by
          have := called rank
          simp only [Program.call.injEq, heq_eq_eq, true_and] at this
          exact this.symm
        subst sameNexts
        exact ⟨matching, _, rfl, rest⟩
  · rintro ⟨matching, later, rfl, rest⟩
    exact .of_call matching rest

/-- Once a first part is known to execute, the composition executes exactly as its rest does. -/
theorem bind_iff {programs : Rank → Program net α} {nexts : Rank → α → Program net β}
    {first rounds : List (Rank → net.Op)} {middle : Rank → α} {values : Rank → β}
    (head : Executes programs first middle) :
    Executes (fun rank => (programs rank).bind (nexts rank)) rounds values ↔
      ∃ second, rounds = first ++ second ∧
        Executes (fun rank => nexts rank (middle rank)) second values := by
  constructor
  · intro execution
    induction head generalizing rounds with
    | done finished => exact ⟨rounds, rfl, by simpa [finished] using execution⟩
    | @round _ ops _ _ _ called matching _ ih =>
        simp only [called, Program.call_bind] at execution
        rcases call_iff.mp execution with ⟨_, later, rfl, rest⟩
        rcases ih rest with ⟨second, rfl, tail⟩
        exact ⟨second, rfl, tail⟩
  · rintro ⟨second, rfl, tail⟩
    exact head.bind tail

/-- Executions are deterministic. -/
theorem unique {programs : Rank → Program net α} {first second : List (Rank → net.Op)}
    {left right : Rank → α} (one : Executes programs first left)
    (other : Executes programs second right) : first = second ∧ left = right := by
  induction one generalizing second with
  | done finished =>
      rw [funext finished] at other
      rcases done_iff.mp other with ⟨rfl, rfl⟩
      exact ⟨rfl, rfl⟩
  | round called _ _ ih =>
      rw [funext called] at other
      rcases call_iff.mp other with ⟨_, later, rfl, rest⟩
      rcases ih rest with ⟨rfl, rfl⟩
      exact ⟨rfl, rfl⟩

end Nonempty

end Executes

/-- Whatever the programs do begins with the given rounds and goes on as the other ones do. -/
def Leads (programs : Rank → Program net α) (rounds : List (Rank → net.Op))
    (nexts : Rank → Program net α) : Prop :=
  ∀ later values, Executes programs (rounds ++ later) values ↔ Executes nexts later values

namespace Leads

variable {nexts : Rank → Program net α} {first second : List (Rank → net.Op)}

theorem refl (programs : Rank → Program net α) : Leads programs [] programs :=
  fun _ _ => Iff.rfl

variable [Nonempty Rank]

theorem call {ops : Rank → net.Op} {rests : ∀ rank, net.Result (ops rank) → Program net α}
    (matching : net.Matching ops)
    (rest : Leads (fun rank => rests rank (net.outcome ops rank)) first nexts) :
    Leads (fun rank => .call (ops rank) (rests rank)) (ops :: first) nexts := by
  intro later values
  rw [List.cons_append, Executes.call_iff, ← rest]
  constructor
  · rintro ⟨_, _, same, execution⟩
    cases same
    exact execution
  · intro execution
    exact ⟨matching, _, rfl, execution⟩

theorem bind {heads : Rank → Program net β} {rests : Rank → β → Program net α}
    {middle : Rank → β} (head : Executes heads first middle)
    (rest : Leads (fun rank => rests rank (middle rank)) second nexts) :
    Leads (fun rank => (heads rank).bind (rests rank)) (first ++ second) nexts := by
  intro later values
  rw [List.append_assoc, Executes.bind_iff head, ← rest]
  constructor
  · rintro ⟨_, same, execution⟩
    rw [List.append_cancel_left same]
    exact execution
  · intro execution
    exact ⟨_, rfl, execution⟩

end Leads

/-- A collective in which a process takes part, with what it receives. -/
abbrev Network.Answer (net : Network Rank) : Type := Σ op : net.Op, net.Result op

/-- One process finishes, given what its collectives return. -/
inductive Follows : Program net α → List net.Answer → α → Prop where
  | done (value : α) : Follows (.done value) [] value
  | call {op : net.Op} {next : net.Result op → Program net α} {result : net.Result op}
      {answers : List net.Answer} {value : α} (rest : Follows (next result) answers value) :
      Follows (.call op next) (⟨op, result⟩ :: answers) value

namespace Follows

theorem done_iff {final value : α} {answers : List net.Answer} :
    Follows (.done final : Program net α) answers value ↔ answers = [] ∧ value = final := by
  constructor
  · intro follows
    cases follows with
    | done => exact ⟨rfl, rfl⟩
  · rintro ⟨rfl, rfl⟩
    exact .done value

theorem call_iff {op : net.Op} {next : net.Result op → Program net α}
    {answers : List net.Answer} {value : α} :
    Follows (.call op next) answers value ↔
      ∃ result later, answers = ⟨op, result⟩ :: later ∧ Follows (next result) later value := by
  constructor
  · intro follows
    cases follows with
    | call rest => exact ⟨_, _, rfl, rest⟩
  · rintro ⟨result, later, rfl, rest⟩
    exact .call rest

theorem not_fault {answers : List net.Answer} {value : α} :
    ¬Follows (.fault : Program net α) answers value := by
  intro follows
  cases follows

theorem bind_iff {program : Program net α} {next : α → Program net β}
    {answers : List net.Answer} {value : β} :
    Follows (program.bind next) answers value ↔
      ∃ first second middle, answers = first ++ second ∧ Follows program first middle ∧
        Follows (next middle) second value := by
  constructor
  · intro follows
    induction program generalizing answers with
    | done middle => exact ⟨[], answers, middle, rfl, .done middle, follows⟩
    | call op rest ih =>
        rcases call_iff.mp follows with ⟨result, later, rfl, inside⟩
        rcases ih result inside with ⟨first, second, middle, rfl, head, tail⟩
        exact ⟨_, second, middle, rfl, .call head, tail⟩
    | fault => exact absurd follows not_fault
  · rintro ⟨first, second, middle, rfl, head, tail⟩
    induction head with
    | done => exact tail
    | call _ ih => exact .call (ih tail)

/-- A process that is told the same finishes with the same value. -/
theorem unique {program : Program net α} {answers : List net.Answer} {value other : α}
    (one : Follows program answers value) (another : Follows program answers other) :
    value = other := by
  induction one with
  | done value => exact (done_iff.mp another).2.symm
  | call _ ih =>
      rcases call_iff.mp another with ⟨_, _, same, rest⟩
      cases same
      exact ih rest

end Follows

/-- Whenever a program finishes, its value has a property. -/
def Program.Ensures (post : α → Prop) : Program net α → Prop
  | .done value => post value
  | .call _ next => ∀ result, (next result).Ensures post
  | .fault => True

theorem Program.Ensures.mono {post weaker : α → Prop} {program : Program net α}
    (ensures : program.Ensures post) (implied : ∀ value, post value → weaker value) :
    program.Ensures weaker := by
  induction program with
  | done value => exact implied value ensures
  | call _ _ ih => exact fun result => ih result (ensures result)
  | fault => trivial

theorem Program.Ensures.bind {middle : α → Prop} {post : β → Prop} {program : Program net α}
    {next : α → Program net β} (ensures : program.Ensures middle)
    (goesOn : ∀ value, middle value → (next value).Ensures post) :
    (program.bind next).Ensures post := by
  induction program with
  | done value => exact goesOn value ensures
  | call _ _ ih => exact fun result => ih result (ensures result)
  | fault => trivial

/-- What a program goes on with matters for the values that it can finish with only. -/
theorem Program.Ensures.bind_congr {post : α → Prop} {program : Program net α}
    {left right : α → Program net β} (ensures : program.Ensures post)
    (same : ∀ value, post value → left value = right value) :
    program.bind left = program.bind right := by
  induction program with
  | done value => exact same value ensures
  | call op rest ih => simp only [call_bind, funext fun result => ih result (ensures result)]
  | fault => rfl

/-- It is enough to look at the runs of a program. -/
theorem Program.Ensures.of_follows {post : α → Prop} {program : Program net α}
    (holds : ∀ answers value, Follows program answers value → post value) :
    program.Ensures post := by
  induction program with
  | done value => exact holds [] value (.done value)
  | call _ _ ih =>
      intro result
      apply ih
      intro answers value follows
      exact holds _ value (.call follows)
  | fault => trivial

theorem Follows.ensures {post : α → Prop} {program : Program net α} {answers : List net.Answer}
    {value : α} (follows : Follows program answers value) (ensures : program.Ensures post) :
    post value := by
  induction follows with
  | done => exact ensures
  | call _ ih => exact ih (ensures _)

/-- A program does not fault, whatever its collectives return. -/
def Program.Safe : Program net α → Prop
  | .done _ => True
  | .call _ next => ∀ result, (next result).Safe
  | .fault => False

theorem Program.Safe.bind {program : Program net α} {next : α → Program net β}
    (safe : program.Safe)
    (goesOn : ∀ answers value, Follows program answers value → (next value).Safe) :
    (program.bind next).Safe := by
  induction program with
  | done value => exact goesOn [] value (.done value)
  | call op rest ih =>
      intro result
      apply ih result (safe result)
      intro answers value follows
      exact goesOn _ value (.call follows)
  | fault => exact safe.elim

/-- What one rank takes part in during the given rounds. -/
def transcript (rank : Rank) (rounds : List (Rank → net.Op)) : List net.Answer :=
  rounds.map fun ops => ⟨ops rank, net.outcome ops rank⟩

/-- In a lockstep execution every process follows its own transcript. -/
theorem Executes.follows {programs : Rank → Program net α} {rounds : List (Rank → net.Op)}
    {values : Rank → α} (execution : Executes programs rounds values) (rank : Rank) :
    Follows (programs rank) (transcript rank rounds) (values rank) := by
  induction execution with
  | done finished =>
      rw [finished rank]
      exact .done _
  | round called _ _ ih =>
      rw [called rank]
      exact .call ih

end Spmd
