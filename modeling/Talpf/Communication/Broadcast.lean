import Talpf.Process.SymbolTables

/-!
# Broadcasts of vectors and strings

The first process broadcasts the length of its value, the others make room, and
then the contents follow.  A process that runs out of memory says so in a
reduction before it throws.  A broadcast of more than `INT_MAX` bytes is refused
by the communicator.
-/

namespace Talpf

open Spmd

/-- A type whose values are copied byte by byte. -/
structure Copyable (T : Type) where
  size : ℕ
  chars : T → List Char
  read : List Char → List T
  length_chars : ∀ x, (chars x).length = size
  read_chars : ∀ xs, read (xs.flatMap chars) = xs

namespace Copyable

/-- Characters are copied as they are. -/
def char : Copyable Char where
  size := 1
  chars c := [c]
  read := id
  length_chars _ := rfl
  read_chars xs := by simp

theorem length_flatMap_chars {T : Type} (type : Copyable T) (xs : List T) :
    (xs.flatMap type.chars).length = type.size * xs.length := by
  induction xs with
  | nil => rfl
  | cons x xs ih =>
      rw [List.flatMap_cons, List.length_append, ih, type.length_chars, List.length_cons,
        Nat.mul_succ, Nat.add_comm]

end Copyable

/-- At which allocations of a broadcast a process runs out of memory. -/
structure BroadcastFaults where
  /-- The temporary array for the contents of a string. -/
  insert : Bool
  /-- The array that receives the contents of a vector. -/
  resize : Bool
  /-- The string that receives them. -/
  assign : Bool
deriving DecidableEq, Repr

namespace Communication

variable {n : ℕ} {T α : Type}

def intMax : ℕ := 2 ^ 31 - 1

/-- `Comm::broadcast` of a memory range. -/
def broadcastMemory (mem : List Char) : Comm n (Except Exn (List Char)) :=
  if mem.length > intMax then .done (.error .exception)
  else .call (.broadcastChars mem) fun received => .done (.ok received)

/-- Allocate memory, and throw `std::bad_alloc` if that fails at any process. -/
def allocating (fails : Bool) (next : Comm n (Except Exn α)) : Comm n (Except Exn α) :=
  if fails then .call (.allreduceOr true) fun _ => .done (.error .badAlloc)
  else
    .call (.allreduceOr false) fun (failed : Bool) =>
      if failed then .done (.error .badAlloc) else next

/-- Only a vector that grows allocates; new elements have the value `zero`. -/
def broadcastVector (type : Copyable T) (zero : T) (resizeFails : Bool) (array : List T) :
    Comm n (Except Exn (List T)) :=
  .call (.broadcast array.length) fun (size : ℕ) =>
    allocating (resizeFails && decide (array.length < size))
      ((broadcastMemory ((array.takeD size zero).flatMap type.chars)).andThen fun received =>
        .done (.ok (type.read received)))

def broadcastString (type : Copyable T) (zero : T) (faults : BroadcastFaults) (str : List T) :
    Comm n (Except Exn (List T)) :=
  .call (.broadcast str.length) fun (size : ℕ) =>
    if size = 0 then .done (.ok [])
    else
      allocating (faults.insert && !str.isEmpty)
        ((broadcastVector type zero faults.resize str).andThen fun array =>
          allocating faults.assign (.done (.ok array)))

theorem allocating_executes_failed {fails : Fin n → Bool} (failed : ∃ p, fails p = true)
    (nexts : Fin n → Comm n (Except Exn α)) :
    Executes (fun p => allocating (fails p) (nexts p)) [fun p => .allreduceOr (fails p)]
      fun _ => .error .badAlloc := by
  have same : ∀ p, allocating (fails p) (nexts p) =
      .call (.allreduceOr (fails p)) fun (failed : Bool) =>
        if fails p = true ∨ failed = true then .done (.error .badAlloc) else nexts p := by
    intro p
    cases fails p with
    | false => simp [allocating]
    | true => simp [allocating]
  simp only [same]
  apply Comm.executes_allreduceOr
  simp only [decide_eq_true failed, or_true, if_true]
  exact .of_done _

theorem allocating_executes {fails : Fin n → Bool} (granted : ∀ p, fails p = false)
    {nexts : Fin n → Comm n (Except Exn α)} {rounds : List (Fin n → Collective n)}
    {values : Fin n → Except Exn α} (rest : Executes nexts rounds values) :
    Executes (fun p => allocating (fails p) (nexts p)) ((fun _ => .allreduceOr false) :: rounds)
      values := by
  simp only [allocating, granted, Bool.false_eq_true, if_false]
  apply Comm.executes_allreduceOr
  simp only [Bool.false_eq_true, exists_false, decide_false, if_false]
  exact rest

/-- Programs that end in an exception end so whatever was to follow. -/
theorem executes_andThen_error {β : Type} {programs : Fin n → Comm n (Except Exn α)}
    {rounds : List (Fin n → Collective n)} {thrown : Exn}
    (head : Executes programs rounds fun _ => .error thrown)
    (nexts : Fin n → α → Comm n (Except Exn β)) :
    Executes (fun p => (programs p).andThen (nexts p)) rounds fun _ => .error thrown := by
  rw [← List.append_nil rounds]
  apply head.bind
  exact .of_done _

section Lockstep

variable {m : ℕ} (type : Copyable T) (zero : T)

/-- Where a broadcast of `value` may lead: to `std::bad_alloc` if some allocation fails, and
otherwise to an exception or to the value, depending on its size. -/
def Outcome (type : Copyable T) (fails : Prop) (value : List T)
    (results : Fin n → Except Exn (List T)) : Prop :=
  (fails ∧ ∀ p, results p = .error .badAlloc) ∨
    (type.size * value.length > intMax ∧ ∀ p, results p = .error .exception) ∨
    type.size * value.length ≤ intMax ∧ ∀ p, results p = .ok value

theorem broadcastMemory_executes (arrays : Fin (m + 1) → List T)
    (even : ∀ p, (arrays p).length = (arrays 0).length) (fails : Prop) :
    ∃ rounds results, Executes (fun p =>
        (broadcastMemory ((arrays p).flatMap type.chars)).andThen fun received =>
          .done (.ok (type.read received))) rounds results ∧
      Outcome type fails (arrays 0) results := by
  have bytes : ∀ p, ((arrays p).flatMap type.chars).length = type.size * (arrays 0).length := by
    intro p
    rw [type.length_flatMap_chars, even p]
  by_cases large : type.size * (arrays 0).length > intMax
  · refine ⟨[], fun _ => .error .exception, ?_, Or.inr (Or.inl ⟨large, fun _ => rfl⟩)⟩
    apply executes_andThen_error
    simp only [broadcastMemory, bytes, if_pos large]
    exact .of_done _
  · refine ⟨[fun p => .broadcastChars ((arrays p).flatMap type.chars)],
      fun _ => .ok (arrays 0), ?_, Or.inr (Or.inr ⟨Nat.le_of_not_lt large, fun _ => rfl⟩)⟩
    simp only [broadcastMemory, bytes, if_neg large, Program.andThen, Program.call_bind,
      Program.done_bind]
    apply Comm.executes_broadcastChars
    change Executes (fun _ => .done (Except.ok (type.read ((arrays 0).flatMap type.chars)))) _ _
    rw [type.read_chars]
    exact .of_done _

theorem broadcastVector_executes (resizeFails : Fin (m + 1) → Bool)
    (arrays : Fin (m + 1) → List T) :
    ∃ rounds results, Executes (fun p =>
        broadcastVector type zero (resizeFails p) (arrays p)) rounds results ∧
      Outcome type (∃ p, resizeFails p = true) (arrays 0) results := by
  let size := (arrays 0).length
  have rooted : (arrays 0).takeD size zero = arrays 0 := List.takeD_eq_take _ (Nat.le_refl _) ▸
    List.take_length
  let fails : Fin (m + 1) → Bool := fun p => resizeFails p && decide ((arrays p).length < size)
  suffices rest : ∃ rounds results, Executes (fun p => allocating (fails p)
      ((broadcastMemory (((arrays p).takeD size zero).flatMap type.chars)).andThen fun received =>
        .done (.ok (type.read received)))) rounds results ∧
      Outcome type (∃ p, resizeFails p = true) (arrays 0) results by
    rcases rest with ⟨rounds, results, execution, outcome⟩
    exact ⟨_, results, Comm.executes_broadcast execution, outcome⟩
  by_cases failed : ∃ p, fails p = true
  · refine ⟨_, _, allocating_executes_failed failed _, Or.inl ⟨?_, fun _ => rfl⟩⟩
    rcases failed with ⟨p, failed⟩
    exact ⟨p, (Bool.and_eq_true_iff.mp failed).1⟩
  · have granted : ∀ p, fails p = false :=
      fun p => Bool.eq_false_iff.mpr fun isTrue => failed ⟨p, isTrue⟩
    have even : ∀ p, ((arrays p).takeD size zero).length =
        ((arrays 0).takeD size zero).length := by
      intro p
      rw [List.takeD_length, List.takeD_length]
    rcases broadcastMemory_executes type (fun p => (arrays p).takeD size zero) even
      (∃ p, resizeFails p = true) with ⟨rounds, results, execution, outcome⟩
    rw [rooted] at outcome
    exact ⟨_, results, allocating_executes granted execution, outcome⟩

/-- Some allocation of a broadcast fails. -/
def Fails (faults : Fin n → BroadcastFaults) : Prop := ∃ p, faults p ≠ ⟨false, false, false⟩

theorem broadcastString_executes (faults : Fin (m + 1) → BroadcastFaults)
    (strs : Fin (m + 1) → List T) :
    ∃ rounds results, Executes (fun p =>
        broadcastString type zero (faults p) (strs p)) rounds results ∧
      Outcome type (Fails faults) (strs 0) results := by
  by_cases empty : (strs 0).length = 0
  · refine ⟨[fun p => .broadcast (strs p).length], fun _ => .ok (strs 0), ?_, Or.inr (Or.inr ?_)⟩
    · apply Comm.executes_broadcast
      change Executes (fun _ => if (strs 0).length = 0 then _ else _) _ _
      simp only [List.length_eq_zero_iff.mp empty, List.length_nil, if_true]
      exact .of_done _
    · rw [empty]
      exact ⟨Nat.zero_le _, fun _ => rfl⟩
  let insertFails : Fin (m + 1) → Bool := fun p => (faults p).insert && !(strs p).isEmpty
  suffices rest : ∃ rounds results, Executes (fun p => allocating (insertFails p)
      ((broadcastVector type zero (faults p).resize (strs p)).andThen fun array =>
        allocating (faults p).assign (.done (.ok array)))) rounds results ∧
      Outcome type (Fails faults) (strs 0) results by
    rcases rest with ⟨rounds, results, execution, outcome⟩
    refine ⟨(fun p => .broadcast (strs p).length) :: rounds, results, ?_, outcome⟩
    apply Comm.executes_broadcast
    change Executes (fun p => if (strs 0).length = 0 then _ else _) _ _
    simp only [if_neg empty]
    exact execution
  by_cases failed : ∃ p, insertFails p = true
  · refine ⟨_, _, allocating_executes_failed failed _, Or.inl ⟨?_, fun _ => rfl⟩⟩
    rcases failed with ⟨p, failed⟩
    refine ⟨p, fun none => ?_⟩
    simp [insertFails, none] at failed
  have granted : ∀ p, insertFails p = false :=
    fun p => Bool.eq_false_iff.mpr fun isTrue => failed ⟨p, isTrue⟩
  rcases broadcastVector_executes type zero (fun p => (faults p).resize) strs with
    ⟨rounds, results, vector, ⟨⟨p, refused⟩, thrown⟩ | ⟨large, thrown⟩ | ⟨small, received⟩⟩
  · rw [funext thrown] at vector
    refine ⟨_, _, allocating_executes granted (executes_andThen_error vector _),
      Or.inl ⟨⟨p, fun none => ?_⟩, fun _ => rfl⟩⟩
    simp [none] at refused
  · rw [funext thrown] at vector
    exact ⟨_, _, allocating_executes granted (executes_andThen_error vector _),
      Or.inr (Or.inl ⟨large, fun _ => rfl⟩)⟩
  · rw [funext received] at vector
    by_cases unassigned : ∃ p, (faults p).assign = true
    · refine ⟨_, _, allocating_executes granted
        (vector.andThen (allocating_executes_failed unassigned _)), Or.inl ⟨?_, fun _ => rfl⟩⟩
      rcases unassigned with ⟨p, refused⟩
      refine ⟨p, fun none => ?_⟩
      simp [none] at refused
    · have assigned : ∀ p, (faults p).assign = false :=
        fun p => Bool.eq_false_iff.mpr fun isTrue => unassigned ⟨p, isTrue⟩
      exact ⟨_, _, allocating_executes granted
        (vector.andThen (allocating_executes assigned (.of_done fun _ => Except.ok (strs 0)))),
        Or.inr (Or.inr ⟨small, fun _ => rfl⟩)⟩

/-- All processes take part in the same collectives, and either all of them run out of memory or
all of them receive the value. -/
def AllOrNone (programs : Fin n → Comm n (Except Exn (List T))) (value : List T) : Prop :=
  ∃ rounds results, Executes programs rounds results ∧
    (∀ p q, Collective.kinds p rounds = Collective.kinds q rounds) ∧
    ((∀ p, results p = .error .badAlloc) ∨ ∀ p, results p = .ok value)

/-- The broadcast of a string, and that of a vector, leads all processes through the same
collectives to the same end: all throw `std::bad_alloc`, which needs a failed allocation, or the
value has more than `INT_MAX` bytes and all throw the exception of the communicator, or it has not
and all receive it. -/
theorem broadcast_together (faults : Fin (m + 1) → BroadcastFaults)
    (values : Fin (m + 1) → List T) :
    (∃ rounds results,
      Executes (fun p => broadcastString type zero (faults p) (values p)) rounds results ∧
      (∀ p q, Collective.kinds p rounds = Collective.kinds q rounds) ∧
      Outcome type (Fails faults) (values 0) results) ∧
    ∃ rounds results,
      Executes (fun p => broadcastVector type zero (faults p).resize (values p)) rounds results ∧
      (∀ p q, Collective.kinds p rounds = Collective.kinds q rounds) ∧
      Outcome type (∃ p, (faults p).resize = true) (values 0) results := by
  rcases broadcastString_executes type zero faults values with
    ⟨stringRounds, strings, stringExecution, stringOutcome⟩
  rcases broadcastVector_executes type zero (fun p => (faults p).resize) values with
    ⟨vectorRounds, vectors, vectorExecution, vectorOutcome⟩
  exact ⟨⟨stringRounds, strings, stringExecution, Comm.kinds_eq stringExecution, stringOutcome⟩,
    ⟨vectorRounds, vectors, vectorExecution, Comm.kinds_eq vectorExecution, vectorOutcome⟩⟩

/-- A string that is too large is not broadcast although no allocation fails. -/
theorem not_allOrNone {value : List Char} (large : value.length > intMax) :
    ¬AllOrNone (fun _ : Fin 2 => broadcastString .char 'x' ⟨false, false, false⟩ value) value := by
  rintro ⟨rounds, results, execution, _, ends⟩
  rcases broadcastString_executes .char 'x' (fun _ : Fin 2 => ⟨false, false, false⟩)
    (fun _ => value) with ⟨otherRounds, others, otherExecution, outcome⟩
  rcases Executes.unique execution otherExecution with ⟨_, rfl⟩
  rcases outcome with ⟨⟨_, fails⟩, _⟩ | ⟨_, thrown⟩ | ⟨small, _⟩
  · exact fails rfl
  · rcases ends with allBad | received
    · have both := (allBad 0).symm.trans (thrown 0)
      simp at both
    · have both := (received 0).symm.trans (thrown 0)
      simp at both
  · rw [Copyable.char, Nat.one_mul] at small
    exact absurd large (Nat.not_lt_of_le small)

theorem not_allOrNone_intMax :
    ¬AllOrNone (fun _ : Fin 2 => broadcastString .char 'x' ⟨false, false, false⟩
      (List.replicate (2 ^ 31) 'x')) (List.replicate (2 ^ 31) 'x') := by
  apply not_allOrNone
  rw [List.length_replicate]
  decide

end Lockstep

end Communication

end Talpf
