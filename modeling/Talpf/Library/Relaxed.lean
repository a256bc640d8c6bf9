import Talpf.Library.Simulation
import Mathlib.Data.Set.Basic

/-!
# Relaxed supersteps

Every process has a memory of its own and sends copies of it to others.  In each
superstep it sends a fixed number of messages to each of them.  It ends its
superstep when it has all messages of that superstep that are sent to it, and there
is no barrier.  What a process is sent reaches its memory when it ends the superstep
in which it was sent.
-/

namespace Relaxed

open Transition

universe u v w

variable {Process : Type u} {Place : Type v} {Value : Type w}

/-- What processes do -/
inductive Call (Process : Type u) (Place : Type v) (Value : Type w) where
  | read (process : Process) (place : Place) (value : Value)
  | write (process : Process) (place : Place) (value : Value)
  /-- A message with copies from places of the process to places of its peer -/
  | send (process peer : Process) (copies : List (Place × Place))
  | enter (process : Process)
  | leave (process : Process)

structure State (Process : Type u) (Place : Type v) (Value : Type w) where
  memory : Process → Place → Value
  /-- What is sent to each process in each superstep -/
  sent : ℕ → Process → Set (Place × Value)
  /-- How many messages a process has sent to its peers in its superstep -/
  messages : Process → Process → ℕ
  computing : Process → Prop
  superstep : Process → ℕ

/-- The values that are copied, with their targets -/
def carried (memory : Place → Value) (copies : List (Place × Place)) : List (Place × Value) :=
  copies.map fun copy => (copy.2, memory copy.1)

/-- What is sent reaches its targets. -/
def Delivered (sent : Set (Place × Value)) (before after : Place → Value) : Prop :=
  ∀ place, (place, after place) ∈ sent ∨
    ((∀ value, (place, value) ∉ sent) ∧ after place = before place)

/-- All messages that the pattern has for the superstep of a process are sent. -/
def State.Complete (pattern : Process → Process → ℕ) (state : State Process Place Value)
    (process : Process) : Prop :=
  ∀ peer, 0 < pattern peer process → state.superstep process < state.superstep peer ∨
    (state.superstep peer = state.superstep process ∧
      state.messages peer process = pattern peer process)

section Machine

variable [DecidableEq Process]

def State.send (state : State Process Place Value) (process peer : Process)
    (values : List (Place × Value)) : State Process Place Value :=
  let superstep := state.superstep process
  { state with
    sent := Function.update state.sent superstep
      (Function.update (state.sent superstep) peer
        (state.sent superstep peer ∪ {value | value ∈ values}))
    messages := Function.update state.messages process
      (Function.update (state.messages process) peer (state.messages process peer + 1)) }

/-- The next superstep of a process -/
def State.next (state : State Process Place Value) (process : Process) (memory : Place → Value) :
    State Process Place Value where
  memory := Function.update state.memory process memory
  sent := state.sent
  messages := Function.update state.messages process fun _ => 0
  computing := Function.update state.computing process True
  superstep := Function.update state.superstep process (state.superstep process + 1)

theorem State.mem_sent_send (state : State Process Place Value) (process peer other : Process)
    (values : List (Place × Value)) (k : ℕ) (value : Place × Value) :
    value ∈ (state.send process peer values).sent k other ↔ value ∈ state.sent k other ∨
      (k = state.superstep process ∧ other = peer ∧ value ∈ values) := by
  by_cases now : k = state.superstep process
  · by_cases here : other = peer
    · simp [State.send, now, here]
    · simp [State.send, now, here]
  · simp [State.send, now]

theorem State.messages_send (state : State Process Place Value) (process peer other third : Process)
    (values : List (Place × Value)) : (state.send process peer values).messages other third =
      state.messages other third + if other = process ∧ third = peer then 1 else 0 := by
  by_cases own : other = process
  · by_cases here : third = peer
    · simp [State.send, own, here]
    · simp [State.send, own, here]
  · simp [State.send, own]

variable [DecidableEq Place]

def Step (pattern : Process → Process → ℕ) (before : State Process Place Value) :
    Call Process Place Value → State Process Place Value → Prop
  | .read process place value, after => before.computing process ∧
      before.memory process place = value ∧ after = before
  | .write process place value, after => before.computing process ∧
      after = { before with
        memory := Function.update before.memory process
          (Function.update (before.memory process) place value) }
  | .send process peer copies, after => before.computing process ∧
      before.messages process peer < pattern process peer ∧
      after = before.send process peer (carried (before.memory process) copies)
  | .enter process, after => before.computing process ∧
      (∀ peer, before.messages process peer = pattern process peer) ∧
      after = { before with computing := Function.update before.computing process False }
  | .leave process, after => ¬before.computing process ∧ before.Complete pattern process ∧
      ∃ memory, Delivered (before.sent (before.superstep process) process)
        (before.memory process) memory ∧ after = before.next process memory

/-- The machine with its memory at the start -/
def machine (pattern : Process → Process → ℕ) (memory : Process → Place → Value) :
    System (State Process Place Value) (Call Process Place Value)
      (Call Process Place Value) where
  start := ⟨memory, fun _ _ => ∅, fun _ _ => 0, fun _ => True, fun _ => 0⟩
  step := Step pattern
  permitted _ _ := True
  shows call := [call]

variable {pattern : Process → Process → ℕ} {memory : Process → Place → Value}
  {before after : State Process Place Value}

theorem continues_call {call : Call Process Place Value} (taken : Step pattern before call after) :
    (machine pattern memory).Continues before [call] after :=
  @System.Continues.single _ _ _ (machine pattern memory) _ _ call trivial taken

end Machine

end Relaxed
