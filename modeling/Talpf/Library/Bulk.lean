import Talpf.Library.Copying
import Talpf.Library.Simulation

/-!
# Bulk-synchronous machine

Processes compute on a memory and request copies, which are carried out all at
once when every process has entered the end of the superstep.  A process that has
entered it computes again only after it has left it.  Memory that requests touch
is out of bounds for the rest of the superstep: sources may only be read, and
targets may not be touched at all.  Which patterns of copies may be requested in
a superstep is a parameter.
-/

namespace Bulk

open Copying Transition

universe u v w

variable {Process : Type u} {Place : Type v} {Value : Type w}

inductive Status where
  | computing
  /-- At the end of the superstep, before the copies -/
  | entered
  /-- At the end of the superstep, after the copies -/
  | released

structure State (Process : Type u) (Place : Type v) (Value : Type w) where
  memory : Place → Value
  /-- The copies that are requested in this superstep -/
  requests : Set (Place × Place)
  status : Process → Status
  /-- How many supersteps are over -/
  superstep : ℕ

/-- What processes do -/
inductive Call (Process : Type u) (Place : Type v) (Value : Type w) where
  | read (process : Process) (place : Place) (value : Value)
  | write (process : Process) (place : Place) (value : Value)
  | request (process : Process) (copies : Set (Place × Place))
  | enter (process : Process)
  | leave (process : Process)

inductive Action (Process : Type u) (Place : Type v) (Value : Type w) where
  | call (call : Call Process Place Value)
  /-- All copies -/
  | communicate

section Machine

variable [DecidableEq Process] [DecidableEq Place]

def State.set (state : State Process Place Value) (process : Process) (status : Status) :
    State Process Place Value :=
  { state with status := Function.update state.status process status }

def Step (before : State Process Place Value) :
    Action Process Place Value → State Process Place Value → Prop
  | .call (.read process place value), after => before.status process = .computing ∧
      before.memory place = value ∧ after = before
  | .call (.write process place value), after => before.status process = .computing ∧
      after = { before with memory := Function.update before.memory place value }
  | .call (.request process copies), after => before.status process = .computing ∧
      after = { before with requests := before.requests ∪ copies }
  | .call (.enter process), after => before.status process = .computing ∧
      after = before.set process .entered
  | .call (.leave process), after => before.status process = .released ∧
      after = before.set process .computing
  | .communicate, after => (∀ process, before.status process = .entered) ∧
      ∃ memory, Copied before.requests before.memory memory ∧
        after = ⟨memory, ∅, fun _ => .released, before.superstep + 1⟩

/-- What processes may do -/
def Permitted (rule : Set (Place × Place) → Prop) (state : State Process Place Value) :
    Action Process Place Value → Prop
  | .call (.read _ place _) => ¬Target state.requests place
  | .call (.write _ place _) => ¬Source state.requests place ∧ ¬Target state.requests place
  | .call (.request _ copies) => rule (state.requests ∪ copies)
  | .call (.enter _) | .call (.leave _) | .communicate => True

def shows : Action Process Place Value → List (Call Process Place Value)
  | .call call => [call]
  | .communicate => []

/-- The machine with its memory at the start -/
def machine (rule : Set (Place × Place) → Prop) (memory : Place → Value) :
    System (State Process Place Value) (Action Process Place Value)
      (Call Process Place Value) where
  start := ⟨memory, ∅, fun _ => .computing, 0⟩
  step := Step
  permitted := Permitted rule
  shows := shows

variable {rule : Set (Place × Place) → Prop} {memory : Place → Value}
  {before after : State Process Place Value}

/-- A call is answered by the same call of the machine. -/
theorem continues_call {call : Call Process Place Value}
    (allowed : Permitted rule before (.call call)) (taken : Step before (.call call) after) :
    (machine rule memory).Continues before [call] after :=
  @System.Continues.single _ _ _ (machine rule memory) _ _ (.call call) allowed taken

/-- The first process leaves the end of the superstep after the copies. -/
theorem continues_first {copy : Place → Value} (process : Process)
    (all : ∀ process, before.status process = .entered)
    (copied : Copied before.requests before.memory copy) :
    (machine rule memory).Continues before [.leave process]
      (State.set ⟨copy, ∅, fun _ => .released, before.superstep + 1⟩ process .computing) := by
  have copies : (machine rule memory).Continues before [] _ :=
    @System.Continues.single _ _ _ (machine rule memory) _ _ .communicate trivial
      ⟨all, copy, copied, rfl⟩
  exact copies.trans (continues_call trivial ⟨rfl, rfl⟩)

end Machine

end Bulk
