import Mathlib.Data.PNat.Notation
import Mathlib.Data.PNat.Basic
import Mathlib.Algebra.Group.Nat.Defs
import Talpf.Library.Groups

/-!
# Nested calls of `lpf_exec`

A `Process` object groups the processes of a communicator.  The first of them, the
root, goes on, while the others serve it inside of the constructor, in
`Process::slave`, until the object of the root is destroyed.  `exec` splits the
communicator: the requested processes run the SPMD function on a machine of their
own, and each of them becomes the root of a group for the execs that it calls itself.
Processes are known by their ranks in the world; their pids depend on the communicator.
-/

namespace Talpf.Nesting

open Groups

/-- A communicator, by the way it was created. -/
inductive Comm where
  | world (size : ℕ)
  | split (parent : Comm) (time : ℕ) (members : List ℕ)
deriving DecidableEq, Repr

namespace Comm

def members : Comm → List ℕ
  | .world size => List.range size
  | .split _ _ members => members

def pid (comm : Comm) (p : ℕ) : ℕ := comm.members.idxOf p

def nprocs (comm : Comm) : ℕ := comm.members.length

end Comm

/-- The calls of `lpf_exec` that a process makes, one after the other.  Some of them may not
find the name of the SPMD function. The collectives of its own context that the SPMD function
calls divide it into rounds; in each round a process may call `lpf_exec` again. -/
inductive Script where
  | finish
  | exec (P : ℕ+) (found : Bool) (rounds : ℕ) (code : (round pid nprocs : ℕ) → Script)
      (next : Script)

/-- An SPMD function. -/
structure Spmd where
  rounds : ℕ
  code : (round pid nprocs : ℕ) → Script

/-- The collectives, with what their caller contributes. -/
inductive Op where
  | broadcast (value : ℕ)
  | split (color : ℕ)
  | broadcastSymbol (symbol : Option Spmd)
  /-- A collective of the context that `hook` creates. -/
  | context (round : ℕ)
  | free

namespace Op

def Result : Op → Type
  | .broadcast _ => ℕ
  | .split _ => Comm
  | .broadcastSymbol _ => Option Spmd
  | .context _ => Unit
  | .free => Unit

def Matches : Op → Op → Prop
  | .broadcast _, .broadcast _ => True
  | .split _, .split _ => True
  | .broadcastSymbol _, .broadcastSymbol _ => True
  | .context round, .context round' => round = round'
  | .free, .free => True
  | _, _ => False

def hasColor (color : ℕ) : Op → Bool
  | .split color' => color' = color
  | _ => false

/-- What a collective returns, given the calls of all members in the order of their pids. -/
def answer (comm : Comm) (time : ℕ) (calls : List (ℕ × Op)) : (op : Op) → op.Result
  | .broadcast _ =>
      match calls with
      | (_, .broadcast value) :: _ => value
      | _ => (0 : ℕ)
  | .split color =>
      .split comm time ((calls.filter fun call => call.2.hasColor color).map Prod.fst)
  | .broadcastSymbol _ =>
      match calls with
      | (_, .broadcastSymbol symbol) :: _ => symbol
      | _ => none
  | .context _ => ()
  | .free => ()

end Op

/-- The collectives of MPI; they are rooted at the process with pid 0. -/
def network : Network ℕ where
  Comm := Comm
  members := Comm.members
  Op := Op
  Result := Op.Result
  Matching _ ops := ∀ p q, (ops p).Matches (ops q)
  outcome comm time ops p :=
    (ops p).answer comm time (comm.members.attach.map fun q => (q.val, ops q))

instance : DecidableEq network.Comm := inferInstanceAs (DecidableEq Comm)

/-- What a process does, apart from calling collectives. -/
inductive Note where
  /-- The process runs the SPMD function, with a group of its own. -/
  | ran (sub : Comm) (pid nprocs : ℕ)
  /-- The process leaves `Process::slave`. -/
  | left (world : Comm)
  /-- The `Process` object is destroyed. -/
  | destroyed (world : Comm)
deriving DecidableEq, Repr

/-- The loops, which are entered by name. -/
inductive Proc where
  | slave (p : ℕ) (world : Comm)
  | hook (p : ℕ) (machine subprocess : Comm) (aborted : Bool) (spmd : Spmd)

abbrev Code : Type := Program network Proc Note

/-- The constructor of a `Process`, which is aborted as soon as it has left `slave`. -/
def construct (p : ℕ) (world : Comm) (next : (aborted : Bool) → Code) : Code :=
  if world.pid p ≠ 0 then .invoke (.slave p world) (next true) else next false

/-- The destructor of a `Process` signals to all slaves that the process will end. -/
def destroy (world : Comm) (aborted : Bool) (next : Code) : Code :=
  if aborted then next
  else .call world (.broadcast 0) (fun _ => [.destroyed world]) fun _ => next

/-- The destructor of a communicator. -/
def free (comm : Comm) (next : Code) : Code :=
  .call comm .free (fun _ => []) fun _ => next

/-- The part of `exec` that all processes of the world run. -/
def join (p : ℕ) (world : Comm) (requestedProcs : ℕ) (symbol : Option Spmd) (next : Code) : Code :=
  let inRequestedGroup := world.pid p < requestedProcs
  let subgroupNr := world.pid p % requestedProcs
  .call world (.split (if inRequestedGroup then 1 else 0)) (fun _ => []) fun (machine : Comm) =>
    if world.pid p = 0 ∧ machine.pid p ≠ 0 then .fault
    else
      .call world (.split subgroupNr) (fun _ => []) fun (group : Comm) =>
        construct p group fun aborted =>
          -- the objects are destroyed in the reverse order of their construction
          let leave := destroy group aborted (free group (free machine next))
          if inRequestedGroup then
            .call machine (.broadcastSymbol symbol) (fun _ => []) fun (symbol : Option Spmd) =>
              match symbol with
              | none => .fault
              | some spmd => .invoke (.hook p machine group aborted spmd) leave
          else leave

/-- `Process::exec`; without a symbol there is nothing to look up. -/
def exec (p : ℕ) (world : Comm) (aborted : Bool) (P : ℕ) (found : Bool) (symbol : Option Spmd)
    (next : Code) : Code :=
  if aborted then next
  else if ¬found then next
  else if world.pid p = 0 then
    -- wake up all the slave processes
    .call world (.broadcast (min world.nprocs P)) (fun _ => []) fun (requestedProcs : ℕ) =>
      join p world requestedProcs symbol next
  else join p world P symbol next

/-- The execs of a process through its `Process` object. -/
def Script.run (p : ℕ) (world : Comm) (aborted : Bool) : Script → Code → Code
  | .finish, next => next
  | .exec P found rounds code rest, next =>
      Nesting.exec p world aborted P found (some ⟨rounds, code⟩) (rest.run p world aborted next)

/-- The rounds of an SPMD function, each of which ends with a collective. -/
def supersteps (p : ℕ) (machine subprocess : Comm) (aborted : Bool) (spmd : Spmd)
    (rounds : List ℕ) (next : Code) : Code :=
  rounds.foldr
    (fun round later =>
      (spmd.code round (machine.pid p) machine.nprocs).run p subprocess aborted
        (.call machine (.context (round + 1)) (fun _ => []) fun _ => later))
    next

/-- The procedures; a collective comes first in both of them. -/
def body : Procedures network Proc Note
  | .slave p world, next => {
      comm := world
      op := .broadcast 0
      notes := fun (requestedProcs : ℕ) => if 0 < requestedProcs then [] else [.left world]
      next := fun (requestedProcs : ℕ) =>
        if 0 < requestedProcs then
          exec p world false requestedProcs true none (.invoke (.slave p world) next)
        else next }
  | .hook p machine subprocess aborted spmd, next => {
      comm := machine
      op := .context 0
      notes := fun _ => [.ran subprocess (machine.pid p) machine.nprocs]
      next := fun _ =>
        supersteps p machine subprocess aborted spmd (List.range spmd.rounds) next }

/-- The processes of a world; the execs that the root calls are given by a script. -/
def start (n : ℕ) (script : Script) : State network Proc Note where
  program p :=
    if p < n then
      construct p (.world n) fun aborted =>
        script.run p (.world n) aborted (destroy (.world n) aborted .done)
    else .done
  log _ := []
  clock _ := 0

/-- An exec on a world, with the number of processes that run the SPMD function. -/
structure Execution where
  world : List ℕ
  requested : ℕ
deriving DecidableEq, Repr

/-- The members of a world that serve one of the requested processes, itself included. -/
def subgroup (world : List ℕ) (requested pid : ℕ) : List ℕ :=
  world.filter fun p => world.idxOf p % requested = pid

/-- All execs of a script on a world, those of the SPMD functions included. -/
def Script.executions (world : List ℕ) : Script → List Execution
  | .finish => []
  | .exec P found rounds code next =>
      let requested := min world.length P
      (if found then
        ⟨world, requested⟩ :: (List.range rounds).flatMap fun round =>
          (List.range requested).flatMap fun pid =>
            (code round pid requested).executions (subgroup world requested pid)
      else []) ++ next.executions world

/-- The exec that a collective starts. -/
def started (event : Event network Note) : Option Execution :=
  match event.comm with
  | .world _ => none
  | .split world _ members =>
      match members.flatMap event.notes with
      | .ran _ _ nprocs :: _ => some ⟨world.members, nprocs⟩
      | _ => none

/-- The first processes of the world run the SPMD function, each as the root of a subgroup. -/
structure Executed (event : Event network Note) (execution : Execution) (sub : ℕ → Comm) :
    Prop where
  ran (p : ℕ) (note : Note) : note ∈ event.notes p ↔
    ∃ pid < execution.requested, execution.world[pid]? = some p ∧
      note = .ran (sub pid) pid execution.requested
  root (pid : ℕ) (requested : pid < execution.requested) :
    (sub pid).members.head? = execution.world[pid]?
  size (pid : ℕ) (requested : pid < execution.requested) :
    (sub pid).nprocs = execution.world.length / execution.requested ∨
      (sub pid).nprocs = (execution.world.length + execution.requested - 1) / execution.requested
  total : ((List.range execution.requested).map fun pid => (sub pid).nprocs).sum =
    execution.world.length

/-- What holds of every collective. -/
structure Sound (event : Event network Note) : Prop where
  executed (execution : Execution) (starts : started event = some execution) :
    ∃ sub, Executed event execution sub
  idle (starts : started event = none) (p : ℕ) (sub : Comm) (pid nprocs : ℕ) :
    .ran sub pid nprocs ∉ event.notes p
  slaves (world : Comm) (root : ℕ) (first : world.members.head? = some root) (p : ℕ)
    (member : p ∈ world.members) (slave : p ≠ root) :
    .left world ∈ event.notes p ↔ .destroyed world ∈ event.notes root

end Talpf.Nesting
