import Mathlib.Data.List.Perm.Basic
import Mathlib.Logic.Function.Basic

/-!
# Programs over several communicators

A process of a message-passing program takes part in collective operations of
several communicators.  `Program` is the code of one process: each call names
its communicator, and recursive procedures are invoked by name.  A collective
takes place when all members of its communicator have called it and the calls
match; nobody else is involved.  So two collectives that can take place at the
same time commute, and one run in which all processes finish decides every other
run: nothing can get stuck, and the same collectives take place.
-/

namespace Groups

/-- Communicators, their collective operations and what these return to each member. -/
structure Network (Pid : Type) where
  Comm : Type
  members : Comm → List Pid
  Op : Type
  Result : Op → Type
  Matching : (comm : Comm) → ({p // p ∈ members comm} → Op) → Prop
  /-- The time is the number of collectives of the communicator so far. -/
  outcome : (comm : Comm) → (time : ℕ) → (ops : {p // p ∈ members comm} → Op) →
    (p : {p // p ∈ members comm}) → Result (ops p)

variable {Pid : Type} {net : Network Pid} {Proc Note : Type}

/-- The code of a process; a note records what the process does when a call returns. -/
inductive Program (net : Network Pid) (Proc Note : Type) where
  | done
  | call (comm : net.Comm) (op : net.Op) (notes : net.Result op → List Note)
      (next : net.Result op → Program net Proc Note)
  | invoke (proc : Proc) (next : Program net Proc Note)
  | fault

/-- The collective that a process calls next. -/
structure Call (net : Network Pid) (Proc Note : Type) where
  comm : net.Comm
  op : net.Op
  notes : net.Result op → List Note
  next : net.Result op → Program net Proc Note

/-- The procedures, each of which begins with a collective, before the given code. -/
abbrev Procedures (net : Network Pid) (Proc Note : Type) : Type :=
  Proc → Program net Proc Note → Call net Proc Note

namespace Program

def head (body : Procedures net Proc Note) : Program net Proc Note → Option (Call net Proc Note)
  | .done => none
  | .call comm op notes next => some ⟨comm, op, notes, next⟩
  | .invoke proc next => some (body proc next)
  | .fault => none

end Program

/-- A collective that takes place, with what the processes note. -/
structure Event (net : Network Pid) (Note : Type) where
  comm : net.Comm
  notes : Pid → List Note

structure State (net : Network Pid) (Proc Note : Type) where
  program : Pid → Program net Proc Note
  log : Pid → List Note
  clock : net.Comm → ℕ

variable [DecidableEq Pid]

/-- What a collective at a given time leaves to be done. -/
def advance (before : Pid → Program net Proc Note) (comm : net.Comm)
    (call : {p // p ∈ net.members comm} → Call net Proc Note) (time : ℕ) :
    Pid → Program net Proc Note :=
  fun p =>
    if h : p ∈ net.members comm then
      (call ⟨p, h⟩).next (net.outcome comm time (fun q => (call q).op) ⟨p, h⟩)
    else before p

def eventAt (comm : net.Comm) (call : {p // p ∈ net.members comm} → Call net Proc Note)
    (time : ℕ) : Event net Note where
  comm := comm
  notes p :=
    if h : p ∈ net.members comm then
      (call ⟨p, h⟩).notes (net.outcome comm time (fun q => (call q).op) ⟨p, h⟩)
    else []

section Frame

variable {before : Pid → Program net Proc Note} {comm comm' : net.Comm}
  {call : {p // p ∈ net.members comm} → Call net Proc Note}
  {call' : {p // p ∈ net.members comm'} → Call net Proc Note} {time time' : ℕ} {p : Pid}

theorem advance_of_mem (member : p ∈ net.members comm) :
    advance before comm call time p =
      (call ⟨p, member⟩).next (net.outcome comm time (fun q => (call q).op) ⟨p, member⟩) :=
  dif_pos member

theorem advance_of_not_mem (outside : p ∉ net.members comm) :
    advance before comm call time p = before p := dif_neg outside

theorem eventAt_notes_of_not_mem (outside : p ∉ net.members comm) :
    (eventAt comm call time).notes p = [] := dif_neg outside

theorem advance_advance (apart : ∀ p ∈ net.members comm, p ∉ net.members comm') :
    advance (advance before comm call time) comm' call' time' =
      advance (advance before comm' call' time') comm call time := by
  funext p
  by_cases here : p ∈ net.members comm
  · rw [advance_of_not_mem (apart p here), advance_of_mem here, advance_of_mem here]
  · have last : advance (advance before comm' call' time') comm call time p =
        advance before comm' call' time' p := advance_of_not_mem here
    rw [last]
    by_cases there : p ∈ net.members comm'
    · rw [advance_of_mem there, advance_of_mem there]
    · rw [advance_of_not_mem there, advance_of_not_mem here, advance_of_not_mem there]

end Frame

variable [DecidableEq net.Comm]

namespace State

variable (state : State net Proc Note) (comm : net.Comm)
  (call : {p // p ∈ net.members comm} → Call net Proc Note)

def event : Event net Note := eventAt comm call (state.clock comm)

/-- The collective takes place. -/
def fire : State net Proc Note where
  program := advance state.program comm call (state.clock comm)
  log p := state.log p ++ (state.event comm call).notes p
  clock := Function.update state.clock comm (state.clock comm + 1)

end State

variable (body : Procedures net Proc Note)

/-- One collective takes place, as soon as all members have called it. -/
inductive Step (state : State net Proc Note) : Event net Note → State net Proc Note → Prop
  | fire {comm : net.Comm} {call : {p // p ∈ net.members comm} → Call net Proc Note}
      (some : net.members comm ≠ [])
      (called : ∀ p : {p // p ∈ net.members comm},
        (state.program p).head body = .some (call p))
      (there : ∀ p, (call p).comm = comm)
      (matching : net.Matching comm fun p => (call p).op) :
      Step state (state.event comm call) (state.fire comm call)

/-- The collectives of a run, one after the other. -/
inductive Runs : State net Proc Note → List (Event net Note) → State net Proc Note → Prop
  | refl (state : State net Proc Note) : Runs state [] state
  | step {before middle after : State net Proc Note} {event : Event net Note}
      {events : List (Event net Note)} (first : Step body before event middle)
      (rest : Runs middle events after) : Runs before (event :: events) after

/-- A process waits for a collective to take place. -/
def Waits (state : State net Proc Note) (p : Pid) (comm : net.Comm) (op : net.Op) : Prop :=
  ∃ call, (state.program p).head body = some call ∧ call.comm = comm ∧ call.op = op

/-- No process calls anything any more. -/
def Quiet (state : State net Proc Note) : Prop := ∀ p, (state.program p).head body = none

variable {body} {state first second : State net Proc Note} {one other : Event net Note}

/-- What a communicator does is decided by what its members have called. -/
theorem Step.unique (left : Step body state one first) (right : Step body state other second)
    (same : one.comm = other.comm) : one = other ∧ first = second := by
  cases left with
  | @fire comm call some called there matching =>
      cases right with
      | @fire comm' call' some' called' there' matching' =>
          obtain rfl : comm = comm' := same
          have calls : call = call' :=
            funext fun p => Option.some.inj ((called p).symm.trans (called' p))
          subst calls
          exact ⟨rfl, rfl⟩

/-- Nobody takes part in two collectives at a time. -/
theorem Step.disjoint (left : Step body state one first) (right : Step body state other second)
    (different : one.comm ≠ other.comm) :
    ∀ p ∈ net.members one.comm, p ∉ net.members other.comm := by
  cases left with
  | @fire comm call some called there matching =>
      cases right with
      | @fire comm' call' some' called' there' matching' =>
          intro p here also
          have same : call ⟨p, here⟩ = call' ⟨p, also⟩ :=
            Option.some.inj ((called ⟨p, here⟩).symm.trans (called' ⟨p, also⟩))
          apply different
          exact (there ⟨p, here⟩).symm.trans ((congrArg Call.comm same).trans (there' ⟨p, also⟩))

section Frame

variable {comm comm' : net.Comm} {call : {p // p ∈ net.members comm} → Call net Proc Note}
  {call' : {p // p ∈ net.members comm'} → Call net Proc Note} {p : Pid}

theorem State.fire_program_of_not_mem (outside : p ∉ net.members comm) :
    (state.fire comm call).program p = state.program p := advance_of_not_mem outside

/-- A collective does not see those of other communicators. -/
theorem State.event_fire (different : comm ≠ comm') :
    (state.fire comm call).event comm' call' = state.event comm' call' :=
  congrArg (eventAt comm' call') (Function.update_of_ne (Ne.symm different) _ _)

theorem State.fire_fire (different : comm ≠ comm')
    (apart : ∀ p ∈ net.members comm, p ∉ net.members comm') :
    (state.fire comm call).fire comm' call' = (state.fire comm' call').fire comm call := by
  have clock : (state.fire comm call).clock comm' = state.clock comm' :=
    Function.update_of_ne (Ne.symm different) _ _
  have clock' : (state.fire comm' call').clock comm = state.clock comm :=
    Function.update_of_ne different _ _
  have programs : ((state.fire comm call).fire comm' call').program =
      ((state.fire comm' call').fire comm call).program := by
    change advance (advance _ comm call _) comm' call' _ =
      advance (advance _ comm' call' _) comm call _
    rw [clock, clock', advance_advance apart]
  have logs : ((state.fire comm call).fire comm' call').log =
      ((state.fire comm' call').fire comm call).log := by
    funext p
    change (state.log p ++ (state.event comm call).notes p) ++
        ((state.fire comm call).event comm' call').notes p =
      (state.log p ++ (state.event comm' call').notes p) ++
        ((state.fire comm' call').event comm call).notes p
    rw [event_fire different, event_fire (Ne.symm different)]
    by_cases here : p ∈ net.members comm
    · have silent : (state.event comm' call').notes p = [] :=
        eventAt_notes_of_not_mem (apart p here)
      simp [silent]
    · have silent : (state.event comm call).notes p = [] := eventAt_notes_of_not_mem here
      simp [silent]
  have clocks : ((state.fire comm call).fire comm' call').clock =
      ((state.fire comm' call').fire comm call).clock := by
    change Function.update (Function.update state.clock comm _) comm' _ =
      Function.update (Function.update state.clock comm' _) comm _
    rw [clock, clock', Function.update_comm different]
  exact State.mk.injEq .. ▸ ⟨programs, logs, clocks⟩

end Frame

theorem Step.diamond (left : Step body state one first) (right : Step body state other second)
    (different : one.comm ≠ other.comm) :
    ∃ both, Step body first other both ∧ Step body second one both := by
  have apart := left.disjoint right different
  cases left with
  | @fire comm call some called there matching =>
      cases right with
      | @fire comm' call' some' called' there' matching' =>
          have distinct : comm ≠ comm' := different
          have disjoint : ∀ p ∈ net.members comm, p ∉ net.members comm' := apart
          have still : ∀ p : {p // p ∈ net.members comm},
              ((state.fire comm' call').program p).head body = .some (call p) := by
            intro p
            rw [State.fire_program_of_not_mem (disjoint p p.2)]
            exact called p
          have still' : ∀ p : {p // p ∈ net.members comm'},
              ((state.fire comm call).program p).head body = .some (call' p) := by
            intro p
            rw [State.fire_program_of_not_mem fun here => disjoint p here p.2]
            exact called' p
          have moved := Step.fire some still there matching
          have moved' := Step.fire some' still' there' matching'
          rw [State.event_fire (Ne.symm distinct)] at moved
          rw [State.event_fire distinct, State.fire_fire distinct disjoint] at moved'
          exact ⟨_, moved', moved⟩

namespace Runs

variable {final after : State net Proc Note} {events earlier : List (Event net Note)}

theorem append {later : List (Event net Note)} (first : Runs body state earlier after)
    (second : Runs body after later final) : Runs body state (earlier ++ later) final := by
  induction first with
  | refl => exact second
  | step first _ ih => exact .step first (ih second)

/-- A collective that can take place now is one of those of a complete run. -/
theorem exchange (run : Runs body state events final) (quiet : Quiet body final)
    (now : Step body state one first) :
    ∃ before later, events = before ++ one :: later ∧ Runs body first (before ++ later) final := by
  induction run generalizing one first with
  | refl state =>
      cases now with
      | @fire comm call some called =>
          obtain ⟨p, member⟩ := List.exists_mem_of_ne_nil _ some
          have none := quiet p
          rw [called ⟨p, member⟩] at none
          cases none
  | @step before middle after event events step rest ih =>
      by_cases same : one.comm = event.comm
      · obtain ⟨rfl, rfl⟩ := now.unique step same
        exact ⟨[], events, rfl, rest⟩
      · rcases now.diamond step same with ⟨both, onwards, there⟩
        rcases ih quiet there with ⟨front, back, split, run⟩
        exact ⟨event :: front, back, by rw [split]; rfl, .step onwards run⟩

/-- Every run is a part of a complete one, up to the order of the collectives. -/
theorem complete (run : Runs body state events final) (quiet : Quiet body final)
    (some : Runs body state earlier after) :
    ∃ later, Runs body after later final ∧ (earlier ++ later).Perm events := by
  induction some generalizing events with
  | refl state => exact ⟨events, run, .refl _⟩
  | @step before middle after event earlier step rest ih =>
      rcases run.exchange quiet step with ⟨front, back, rfl, onwards⟩
      rcases ih onwards with ⟨later, completed, shuffled⟩
      refine ⟨later, completed, ?_⟩
      exact (shuffled.cons event).trans List.perm_middle.symm

/-- Whoever waits for a collective will take part in it, with calls of the others that match. -/
theorem matching (run : Runs body state events final) (quiet : Quiet body final) {p : Pid}
    {comm : net.Comm} {op : net.Op} (waits : Waits body state p comm op) :
    ∃ ops : {p // p ∈ net.members comm} → net.Op, p ∈ net.members comm ∧
      net.Matching comm ops ∧ ∀ q other, Waits body state q.1 comm other → ops q = other := by
  induction run with
  | refl state =>
      rcases waits with ⟨call, called, _⟩
      rw [quiet p] at called
      cases called
  | @step before middle after event events step rest ih =>
      cases step with
      | @fire comm' call some called there matching =>
          by_cases same : comm' = comm
          · subst same
            by_cases member : p ∈ net.members comm'
            · refine ⟨fun q => (call q).op, member, matching, ?_⟩
              rintro q other ⟨call', called', _, rfl⟩
              exact congrArg Call.op (Option.some.inj ((called q).symm.trans called'))
            · have still : Waits body (before.fire comm' call) p comm' op := by
                rcases waits with ⟨call', called', here, now⟩
                refine ⟨call', ?_, here, now⟩
                rwa [State.fire_program_of_not_mem member]
              rcases ih quiet still with ⟨_, listed, _⟩
              exact absurd listed member
          · have stays : ∀ q op, Waits body before q comm op →
                Waits body (before.fire comm' call) q comm op := by
              rintro q op ⟨call', called', here, now⟩
              refine ⟨call', ?_, here, now⟩
              have away : q ∉ net.members comm' := by
                intro member
                have equal := Option.some.inj ((called ⟨q, member⟩).symm.trans called')
                exact same ((there ⟨q, member⟩).symm.trans ((congrArg Call.comm equal).trans here))
              rwa [State.fire_program_of_not_mem away]
            rcases ih quiet (stays p op waits) with ⟨ops, listed, matches_, agree⟩
            exact ⟨ops, listed, matches_, fun q other now => agree q other (stays q other now)⟩

end Runs

section Reaches

variable {View : Type} (body : Procedures net Proc Note) (good : Event net Note → Prop)
  (view : Event net Note → Option View)

/-- Some run takes every process from one program to another; the collectives of the run are
good, and these are the views that they give. -/
def Reaches (before after : Pid → Program net Proc Note) (seen : List View) : Prop :=
  ∀ state : State net Proc Note, state.program = before →
    ∃ events final, Runs body state events final ∧ final.program = after ∧
      (∀ event ∈ events, good event) ∧ events.filterMap view = seen

namespace Reaches

variable {body good view} {before middle after : Pid → Program net Proc Note}
  {seen more : List View}

theorem refl (programs : Pid → Program net Proc Note) :
    Reaches body good view programs programs [] :=
  fun state same => ⟨[], state, .refl state, same, by simp, rfl⟩

theorem trans (first : Reaches body good view before middle seen)
    (second : Reaches body good view middle after more) :
    Reaches body good view before after (seen ++ more) := by
  intro state same
  rcases first state same with ⟨events, halfway, run, reached, fine, viewed⟩
  rcases second halfway reached with ⟨events', final, run', reached', fine', viewed'⟩
  refine ⟨events ++ events', final, run.append run', reached', ?_, ?_⟩
  · intro event member
    rcases List.mem_append.mp member with member | member
    · exact fine event member
    · exact fine' event member
  · rw [List.filterMap_append, viewed, viewed']

/-- The members of a communicator call a collective. -/
theorem collective {comm : net.Comm} {call : {p // p ∈ net.members comm} → Call net Proc Note}
    {now : Option View} (some : net.members comm ≠ [])
    (called : ∀ p : {p // p ∈ net.members comm}, (before p).head body = .some (call p))
    (there : ∀ p, (call p).comm = comm) (matching : net.Matching comm fun p => (call p).op)
    (fine : ∀ time, good (eventAt comm call time))
    (viewed : ∀ time, view (eventAt comm call time) = now)
    (rest : ∀ time, Reaches body good view (advance before comm call time) after seen) :
    Reaches body good view before after (now.toList ++ seen) := by
  rintro state rfl
  rcases rest (state.clock comm) (state.fire comm call) rfl with
    ⟨events, final, run, reached, good', viewed'⟩
  refine ⟨state.event comm call :: events, final,
    .step (.fire some called there matching) run, reached, ?_, ?_⟩
  · intro event member
    rcases List.mem_cons.mp member with rfl | member
    · exact fine (state.clock comm)
    · exact good' event member
  · have view_event : view (state.event comm call) = now := viewed (state.clock comm)
    cases now <;> simp [view_event, viewed']

/-- One stage after the other. -/
theorem iterate {stage : ℕ → Pid → Program net Proc Note} {seen : ℕ → List View} (count : ℕ)
    (each : ∀ i < count, Reaches body good view (stage i) (stage (i + 1)) (seen i)) :
    Reaches body good view (stage 0) (stage count) ((List.range count).flatMap seen) := by
  induction count with
  | zero => exact refl _
  | succ count ih =>
      rw [List.range_succ, List.flatMap_append, List.flatMap_singleton]
      exact (ih fun i below => each i (Nat.lt_succ_of_lt below)).trans
        (each count (Nat.lt_succ_self _))

end Reaches

end Reaches

end Groups
