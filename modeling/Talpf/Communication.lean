import Talpf.Library.Spmd
import Mathlib.Algebra.BigOperators.Fin
import Mathlib.Data.Fintype.Basic
import Mathlib.Data.Finset.Lattice.Fold

/-!
# The communicator

`Communication` is the interface through which all layers of the runtime reach
MPI.  This file lists the collective operations that the modelled code calls,
each with the contribution of its caller, and instantiates the lockstep library
with them.  Calls match when they are calls of the same function; what MPI
returns then depends on the contributions of all processes.
-/

namespace Talpf

/-- A memory area as a process announces it to its peers. -/
structure MemoryRegistration where
  addr : ℕ
  size : ℕ
  lkey : ℕ
  rkey : ℕ
deriving DecidableEq, Repr

namespace MemoryRegistration

/-- The value with which slots are filled before anything is registered. -/
def null : MemoryRegistration := ⟨0, 0, 0, 0⟩

end MemoryRegistration

/-- Which function of `Communication` a collective call belongs to. -/
inductive CollectiveKind where
  | barrier
  | ibarrier
  | allreduceOr
  | allreduceAnd
  | allreduceSum
  | allreduceMax
  | iallreduceSum
  | allToAll
  | allgatherLid
  | allgatherGid
  | allgatherRegistration
  | broadcast
  | broadcastChars
deriving DecidableEq, Repr

/-- A collective call together with the contribution of the calling process. -/
inductive Collective (n : ℕ) where
  | barrier
  | ibarrier
  | allreduceOr (myElement : Bool)
  | allreduceAnd (myElement : Bool)
  | allreduceSum (myElement : Int)
  | allreduceMax (myElement : ℕ)
  /-- Only called with the two elements of the vote. -/
  | iallreduceSum (xs : Int × Int)
  | allToAll (sendArray : Fin n → ℕ)
  | allgatherLid (lid : ℕ)
  | allgatherGid (gid : ℕ)
  | allgatherRegistration (local_ : MemoryRegistration)
  /-- The element of the first process, which is the root of all broadcasts. -/
  | broadcast (element : ℕ)
  | broadcastChars (array : List Char)

namespace Collective

variable {n : ℕ}

def kind : Collective n → CollectiveKind
  | .barrier => .barrier
  | .ibarrier => .ibarrier
  | .allreduceOr _ => .allreduceOr
  | .allreduceAnd _ => .allreduceAnd
  | .allreduceSum _ => .allreduceSum
  | .allreduceMax _ => .allreduceMax
  | .iallreduceSum _ => .iallreduceSum
  | .allToAll _ => .allToAll
  | .allgatherLid _ => .allgatherLid
  | .allgatherGid _ => .allgatherGid
  | .allgatherRegistration _ => .allgatherRegistration
  | .broadcast _ => .broadcast
  | .broadcastChars _ => .broadcastChars

/-- What the call returns. -/
abbrev Result : Collective n → Type
  | .barrier | .ibarrier => Unit
  | .allreduceOr _ | .allreduceAnd _ => Bool
  | .allreduceSum _ => Int
  | .allreduceMax _ => ℕ
  | .iallreduceSum _ => Int × Int
  | .allToAll _ | .allgatherLid _ | .allgatherGid _ => Fin n → ℕ
  | .allgatherRegistration _ => Fin n → MemoryRegistration
  | .broadcast _ => ℕ
  | .broadcastChars _ => List Char

/-- The contribution to a logical reduction. -/
def flag : Collective n → Bool
  | .allreduceOr myElement | .allreduceAnd myElement => myElement
  | _ => false

/-- The contribution to a sum. -/
def summand : Collective n → Int
  | .allreduceSum myElement => myElement
  | _ => 0

/-- The contribution to the vote. -/
def ballot : Collective n → Int × Int
  | .iallreduceSum xs => xs
  | _ => (0, 0)

/-- The contribution to a maximum, a local identifier to be gathered, or a number to be
broadcast. -/
def number : Collective n → ℕ
  | .allreduceMax myElement | .broadcast myElement => myElement
  | .allgatherLid lid => lid
  | .allgatherGid gid => gid
  | _ => 0

/-- The element that a total exchange sends to a process. -/
def sent : Collective n → Fin n → ℕ
  | .allToAll sendArray => sendArray
  | _ => fun _ => 0

/-- The memory area to be gathered. -/
def registration : Collective n → MemoryRegistration
  | .allgatherRegistration area => area
  | _ => .null

/-- The text to be broadcast. -/
def chars : Collective n → List Char
  | .broadcastChars array => array
  | _ => []

/-- The collectives in which process `pid` takes part in the given rounds. -/
def kinds (pid : Fin n) (rounds : List (Fin n → Collective n)) : List CollectiveKind :=
  rounds.map fun ops => (ops pid).kind

@[simp]
theorem kinds_nil (pid : Fin n) : kinds pid [] = [] := rfl

@[simp]
theorem kinds_cons (pid : Fin n) (ops : Fin n → Collective n)
    (rounds : List (Fin n → Collective n)) :
    kinds pid (ops :: rounds) = (ops pid).kind :: kinds pid rounds := rfl

@[simp]
theorem kinds_append (pid : Fin n) (first second : List (Fin n → Collective n)) :
    kinds pid (first ++ second) = kinds pid first ++ kinds pid second := List.map_append

/-- The sum of all contributions. -/
def total (ops : Fin n → Collective n) : Int := ∑ q, (ops q).summand

/-- The two sums of a vote. -/
def votes (ops : Fin n → Collective n) : Int × Int :=
  (∑ q, (ops q).ballot.1, ∑ q, (ops q).ballot.2)

/-- The largest contribution. -/
def largest (ops : Fin n → Collective n) : ℕ :=
  ((List.finRange n).map fun q => (ops q).number).foldr max 0

/-- What process `pid` receives for its call when the processes have called `ops`. -/
def outcome (ops : Fin n → Collective n) (pid : Fin n) : (op : Collective n) → op.Result
  | .barrier | .ibarrier => ()
  | .allreduceOr _ => decide (∃ q, (ops q).flag = true)
  | .allreduceAnd _ => decide (∀ q, (ops q).flag = true)
  | .allreduceSum _ => total ops
  | .allreduceMax _ => largest ops
  | .iallreduceSum _ => votes ops
  | .allToAll _ => fun q => (ops q).sent pid
  | .allgatherLid _ | .allgatherGid _ => fun q => (ops q).number
  | .allgatherRegistration _ => fun q => (ops q).registration
  | .broadcast _ => (ops ⟨0, pid.pos⟩).number
  | .broadcastChars _ => (ops ⟨0, pid.pos⟩).chars

end Collective

/-- The machine communicator of `n` processes. -/
abbrev machine (n : ℕ) : Spmd.Network (Fin n) where
  Op := Collective n
  Result := Collective.Result
  Matching ops := ∀ p q, (ops p).kind = (ops q).kind
  outcome ops pid := Collective.outcome ops pid (ops pid)

/-- The program of one process on the machine communicator. -/
abbrev Comm (n : ℕ) (α : Type) := Spmd.Program (machine n) α

namespace Comm

variable {n : ℕ} {α : Type}

open Spmd (Executes Program)

variable {rounds : List (Fin n → Collective n)} {values : Fin n → α}

/-- One round of a collective, after which every process continues with its result. -/
theorem executes_barrier {nexts : Fin n → Unit → Comm n α}
    (rest : Executes (fun p => nexts p ()) rounds values) :
    Executes (fun p => (.call .barrier (nexts p) : Comm n α))
      ((fun _ => Collective.barrier) :: rounds) values :=
  .of_call (fun _ _ => rfl) rest

theorem executes_ibarrier {nexts : Fin n → Unit → Comm n α}
    (rest : Executes (fun p => nexts p ()) rounds values) :
    Executes (fun p => (.call .ibarrier (nexts p) : Comm n α))
      ((fun _ => Collective.ibarrier) :: rounds) values :=
  .of_call (fun _ _ => rfl) rest

theorem executes_allreduceOr {flags : Fin n → Bool} {nexts : Fin n → Bool → Comm n α}
    (rest : Executes (fun p => nexts p (decide (∃ q, flags q = true))) rounds values) :
    Executes (fun p => (.call (.allreduceOr (flags p)) (nexts p) : Comm n α))
      ((fun p => .allreduceOr (flags p)) :: rounds) values :=
  .of_call (fun _ _ => rfl) rest

theorem executes_allreduceMax {numbers : Fin n → ℕ} {nexts : Fin n → ℕ → Comm n α}
    (rest : Executes (fun p => nexts p (((List.finRange n).map numbers).foldr max 0))
      rounds values) :
    Executes (fun p => (.call (.allreduceMax (numbers p)) (nexts p) : Comm n α))
      ((fun p => .allreduceMax (numbers p)) :: rounds) values :=
  .of_call (fun _ _ => rfl) rest

theorem executes_allreduceSum {summands : Fin n → Int} {nexts : Fin n → Int → Comm n α}
    (rest : Executes (fun p => nexts p (∑ q, summands q)) rounds values) :
    Executes (fun p => (.call (.allreduceSum (summands p)) (nexts p) : Comm n α))
      ((fun p => .allreduceSum (summands p)) :: rounds) values :=
  .of_call (fun _ _ => rfl) rest

theorem executes_iallreduceSum {ballots : Fin n → Int × Int}
    {nexts : Fin n → Int × Int → Comm n α}
    (rest : Executes (fun p => nexts p (∑ q, (ballots q).1, ∑ q, (ballots q).2)) rounds values) :
    Executes (fun p => (.call (.iallreduceSum (ballots p)) (nexts p) : Comm n α))
      ((fun p => .iallreduceSum (ballots p)) :: rounds) values :=
  .of_call (fun _ _ => rfl) rest

theorem executes_allToAll {sends : Fin n → Fin n → ℕ} {nexts : Fin n → (Fin n → ℕ) → Comm n α}
    (rest : Executes (fun p => nexts p fun q => sends q p) rounds values) :
    Executes (fun p => (.call (.allToAll (sends p)) (nexts p) : Comm n α))
      ((fun p => .allToAll (sends p)) :: rounds) values :=
  .of_call (fun _ _ => rfl) rest

theorem executes_allgatherLid {lids : Fin n → ℕ} {nexts : Fin n → (Fin n → ℕ) → Comm n α}
    (rest : Executes (fun p => nexts p lids) rounds values) :
    Executes (fun p => (.call (.allgatherLid (lids p)) (nexts p) : Comm n α))
      ((fun p => .allgatherLid (lids p)) :: rounds) values :=
  .of_call (fun _ _ => rfl) rest

theorem executes_allgatherGid {gids : Fin n → ℕ} {nexts : Fin n → (Fin n → ℕ) → Comm n α}
    (rest : Executes (fun p => nexts p gids) rounds values) :
    Executes (fun p => (.call (.allgatherGid (gids p)) (nexts p) : Comm n α))
      ((fun p => .allgatherGid (gids p)) :: rounds) values :=
  .of_call (fun _ _ => rfl) rest

theorem executes_allgatherRegistration {areas : Fin n → MemoryRegistration}
    {nexts : Fin n → (Fin n → MemoryRegistration) → Comm n α}
    (rest : Executes (fun p => nexts p areas) rounds values) :
    Executes (fun p => (.call (.allgatherRegistration (areas p)) (nexts p) : Comm n α))
      ((fun p => .allgatherRegistration (areas p)) :: rounds) values :=
  .of_call (fun _ _ => rfl) rest

theorem executes_broadcast {elements : Fin n → ℕ} {nexts : Fin n → ℕ → Comm n α}
    (rest : Executes (fun p => nexts p (elements ⟨0, p.pos⟩)) rounds values) :
    Executes (fun p => (.call (.broadcast (elements p)) (nexts p) : Comm n α))
      ((fun p => .broadcast (elements p)) :: rounds) values :=
  .of_call (fun _ _ => rfl) rest

theorem executes_broadcastChars {arrays : Fin n → List Char} {nexts : Fin n → List Char → Comm n α}
    (rest : Executes (fun p => nexts p (arrays ⟨0, p.pos⟩)) rounds values) :
    Executes (fun p => (.call (.broadcastChars (arrays p)) (nexts p) : Comm n α))
      ((fun p => .broadcastChars (arrays p)) :: rounds) values :=
  .of_call (fun _ _ => rfl) rest

/-- Two processes that are at calls of different kinds are stuck. -/
theorem not_of_kinds {programs : Fin n → Comm n α} {p q : Fin n} {left right : Collective n}
    {leftNext : left.Result → Comm n α} {rightNext : right.Result → Comm n α}
    (atLeft : programs p = .call left leftNext) (atRight : programs q = .call right rightNext)
    (differ : left.kind ≠ right.kind) : ¬Executes programs rounds values := by
  intro execution
  cases execution with
  | done finished => simpa [atLeft] using finished p
  | round called matching =>
      have sameLeft := (Program.call.inj ((called p).symm.trans atLeft)).1
      have sameRight := (Program.call.inj ((called q).symm.trans atRight)).1
      exact differ (by rw [← sameLeft, ← sameRight]; exact matching p q)

/-- All processes take part in the same collectives. -/
theorem kinds_eq {programs : Fin n → Comm n α} (execution : Executes programs rounds values)
    (p q : Fin n) : Collective.kinds p rounds = Collective.kinds q rounds := by
  induction execution with
  | done => rfl
  | round _ matching _ ih => rw [Collective.kinds_cons, Collective.kinds_cons, matching p q, ih]

end Comm

end Talpf
