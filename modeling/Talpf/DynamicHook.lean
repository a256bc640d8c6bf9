import Mathlib.Data.Fin.Tuple.Basic
import Mathlib.Data.List.FinRange
import Mathlib.Logic.Equiv.Defs

/-!
# Hooking processes together one by one

This file models `dynamicHook` after the sockets between the server and its
clients are up.  Processes are named by their connection: process `0` is the
server, which has `pid` 0, and process `p > 0` is the client behind
`clients[p]`.  The clients connect in any order, so that their own `pid`s are
any permutation.

The server hands each client in turn the name of its MPI port and the client's
index, over a socket.  Sockets are buffered, hence a client reads some time after
the server has written, or finds the connection closed.  The collectives are
joint steps of all processes of a communicator.
-/

namespace Talpf

namespace DynamicHook

/-- A communicator: its processes in the order of their ranks. -/
abbrev Comm (m : ℕ) := List (Fin (m + 1))

/-- The process that all others connect to. -/
abbrev server {m : ℕ} : Fin (m + 1) := 0

/-- An intercommunicator, as the processes of its local group hold it. -/
structure Intercomm (m : ℕ) where
  localGroup : Comm m
  remoteGroup : Comm m

/-- A collective, with the communicators that take part in it. -/
inductive Collective (m : ℕ)
  | allreduce (comm : Comm m)
  | accept (comm client : Comm m)
  | merge (low high : Comm m)
  | split (comm : Comm m)

/-- What is left of a call to `dynamicHook`. -/
inductive Code (m : ℕ)
  | write (client : Fin (m + 1)) (bytes : Option (Fin (m + 1))) (next : Code m)
  | read (next : Option (Fin (m + 1)) → Code m)
  | allreduce (comm : Comm m) (success : Bool) (next : Bool → Code m)
  | accept (comm : Comm m) (next : Intercomm m → Code m)
  | connect (comm : Comm m) (next : Intercomm m → Code m)
  | merge (newcomm : Intercomm m) (high : Bool) (next : Comm m → Code m)
  | split (comm : Comm m) (key : Fin (m + 1)) (next : Comm m → Code m)
  | returns (result : Comm m)
  | throws
  | aborts

namespace Code

/-- The call has ended, and with it the sockets of the process are closed. -/
inductive Done {m : ℕ} : Code m → Prop
  | returns (result : Comm m) : Done (.returns result)
  | throws : Done .throws
  | aborts : Done .aborts

end Code

/-- The circumstances of a hook of `m + 1` processes. -/
structure Launch (m : ℕ) where
  pid : Equiv.Perm (Fin (m + 1))
  /-- The assertions are compiled in, that is, `NDEBUG` is not defined. -/
  debug : Bool
  /-- Whether the server writes the whole port name to a client. -/
  writesPort : Fin (m + 1) → Bool
  /-- Whether the server writes the whole index to a client. -/
  writesIndex : Fin (m + 1) → Bool
  pid_server : (pid server).val = 0

namespace Launch

variable {m : ℕ} (launch : Launch m)

def handsOut (p : Fin (m + 1)) : Bool := launch.writesPort p && launch.writesIndex p

/-- What `readAll` leaves client `p` with: its index, or too few bytes. -/
def answer (p : Fin (m + 1)) : Option (Fin (m + 1)) := if launch.handsOut p then some p else none

theorem pid_eq_zero {i : Fin (m + 1)} : (launch.pid i).val = 0 ↔ i = server := by
  constructor
  · intro zero
    exact launch.pid.injective (Fin.ext (zero.trans launch.pid_server.symm))
  · rintro rfl
    exact launch.pid_server

end Launch

variable {m : ℕ} (launch : Launch m)

/-- The loop `for (p = p0; p < nprocs; ++p)` and the renumbering after it, on process `self`. -/
def rounds (self : Fin (m + 1)) : List (Fin (m + 1)) → Comm m → Code m
  | [], comm => .split comm (launch.pid self) .returns
  | p :: rest, comm =>
      if launch.debug && comm.length != p.val then .aborts
      else
        let reduce (success : Bool) : Code m :=
          .allreduce comm success fun allSuccess =>
            if allSuccess then
              .accept comm fun newcomm =>
                .merge newcomm false fun comm =>
                  if launch.debug && comm.length != p.val + 1 then .aborts
                  else rounds self rest comm
            -- the client is lost, but the loop goes on with the next one
            else rounds self rest comm
        if (launch.pid self).val = 0 then .write p (launch.answer p) (reduce (launch.handsOut p))
        else reduce true

/-- The remaining iterations of a process that starts its loop after `p`. -/
def iterations (p : Fin (m + 1)) : List (Fin (m + 1)) := (List.finRange (m + 1)).drop (p.val + 1)

/-- `dynamicHook` on process `self`, from the moment its connections are established. -/
def dynamicHook (self : Fin (m + 1)) : Code m :=
  if (launch.pid self).val = 0 then rounds launch self (iterations server) [self]
  else
    .read fun p0 =>
      match p0 with
      | none => .throws
      | some p0 =>
          .connect [self] fun newcomm =>
            .merge newcomm true fun comm => rounds launch self (iterations p0) comm

/-- All processes, what is in the sockets to the clients, and the collectives so far. -/
structure Config (m : ℕ) where
  code : Fin (m + 1) → Code m
  socket : Fin (m + 1) → Option (Option (Fin (m + 1)))
  performed : Fin (m + 1) → List (Collective m)

namespace Config

def start : Config m := ⟨dynamicHook launch, fun _ => none, fun _ => []⟩

variable (config : Config m)

/-- One process takes a step of its own. -/
def proceed (i : Fin (m + 1)) (next : Code m) : Config m :=
  { config with code := Function.update config.code i next }

/-- The given processes take part in a collective. -/
def perform (collective : Collective m) (members : Comm m) (next : Fin (m + 1) → Code m) :
    Config m :=
  { config with
    code := fun i => if i ∈ members then next i else config.code i
    performed := fun i =>
      if i ∈ members then config.performed i ++ [collective] else config.performed i }

end Config

/-- The order in which `MPI_Comm_split` ranks processes of one colour. -/
def sorted (key : Fin (m + 1) → Fin (m + 1)) (comm : Comm m) : Comm m :=
  comm.mergeSort fun a b => decide (key a ≤ key b)

/-- A step of one process, or a collective of all processes that must take part. -/
inductive Step (config : Config m) : Config m → Prop
  | write {i p : Fin (m + 1)} {bytes : Option (Fin (m + 1))} {next : Code m}
      (call : config.code i = .write p bytes next) :
      Step config
        { config.proceed i next with socket := Function.update config.socket p (some bytes) }
  | read {i : Fin (m + 1)} {bytes : Option (Fin (m + 1))}
      {next : Option (Fin (m + 1)) → Code m} (call : config.code i = .read next)
      (delivered : config.socket i = some bytes) : Step config (config.proceed i (next bytes))
  | lost {i : Fin (m + 1)} {next : Option (Fin (m + 1)) → Code m}
      (call : config.code i = .read next) (silent : config.socket i = none)
      (closed : (config.code server).Done) : Step config (config.proceed i (next none))
  | allreduce {comm : Comm m} {success : Fin (m + 1) → Bool}
      {next : Fin (m + 1) → Bool → Code m} (some_member : comm ≠ [])
      (calls : ∀ i ∈ comm, config.code i = .allreduce comm (success i) (next i)) :
      Step config
        (config.perform (.allreduce comm) comm fun i => next i (comm.all success))
  | accept {comm client : Comm m} {next : Fin (m + 1) → Intercomm m → Code m}
      (some_member : comm ≠ []) (some_client : client ≠ [])
      (accepts : ∀ i ∈ comm, config.code i = .accept comm (next i))
      (connects : ∀ i ∈ client, config.code i = .connect client (next i)) :
      Step config
        (config.perform (.accept comm client) (comm ++ client) fun i =>
          next i (if i ∈ comm then ⟨comm, client⟩ else ⟨client, comm⟩))
  | merge {low high : Comm m} {next : Fin (m + 1) → Comm m → Code m}
      (some_low : low ≠ []) (some_high : high ≠ [])
      (lows : ∀ i ∈ low, config.code i = .merge ⟨low, high⟩ false (next i))
      (highs : ∀ i ∈ high, config.code i = .merge ⟨high, low⟩ true (next i)) :
      Step config
        (config.perform (.merge low high) (low ++ high) fun i => next i (low ++ high))
  | split {comm : Comm m} {key : Fin (m + 1) → Fin (m + 1)}
      {next : Fin (m + 1) → Comm m → Code m} (some_member : comm ≠ [])
      (calls : ∀ i ∈ comm, config.code i = .split comm (key i) (next i)) :
      Step config (config.perform (.split comm) comm fun i => next i (sorted key comm))

/-- The configurations that some order of the processes' steps leads to. -/
def Reachable (config : Config m) : Prop :=
  Relation.ReflTransGen Step (Config.start launch) config

/-- A process has made no other collectives than the server since it joined. -/
def SameCollectives (config : Config m) : Prop :=
  ∀ i, config.performed i <:+ config.performed server

/-- A communicator of all processes, in which the process has its `pid` as its rank. -/
def Whole (self : Fin (m + 1)) (comm : Comm m) : Prop :=
  comm.length = m + 1 ∧ comm[(launch.pid self).val]? = some self

/--
The collectives of the processes joined so far match in every run, no run gets
stuck, and whoever returns holds the requested communicator.
-/
def HooksTogether : Prop :=
  ∀ config, Reachable launch config →
    SameCollectives config ∧
    ((∀ i, (config.code i).Done) ∨ ∃ after, Step config after) ∧
    ∀ i comm, config.code i = .returns comm → Whole launch i comm

end DynamicHook

end Talpf
