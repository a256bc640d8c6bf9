import Talpf.Interface
import Talpf.MemoryTable.Registrations
import Talpf.MessageQueue.Resizes

/-!
# SPMD functions

The SPMD functions that this development runs under the hook are made of
supersteps: the process makes some calls that take part in no communication,
syncs in the default mode and waits for the sync to complete.  After the last
superstep it may make some more calls before it returns.
-/

namespace Talpf

open Spmd

/-- A call between two syncs.  A registration is referred to by its position among those of its
kind. -/
inductive Request where
  | registerLocal (mem size : ℕ)
  | deregisterLocal (k : ℕ)
  | registerGlobal (mem size : ℕ)
  | deregisterGlobal (k : ℕ)
  | resizeMesgQueue (nMsgs : ℕ)
  | resizeMemreg (nRegs : ℕ)
deriving DecidableEq, Repr

/-- What an SPMD function calls. -/
structure Script where
  supersteps : List (List Request)
  /-- The calls between the last sync and the return -/
  last : List Request
deriving DecidableEq, Repr

/-- A process in an SPMD function, and the registrations that it has made. -/
structure Caller (n : ℕ) where
  runtime : Interface n
  locals : List Registration
  globals : List Registration

namespace Caller

variable {n : ℕ}

def queue (caller : Caller n) : MessageQueue n := caller.runtime.mesgQueue

def withQueue (caller : Caller n) (queue : MessageQueue n) : Caller n :=
  { caller with runtime := { caller.runtime with mesgQueue := queue } }

def node (caller : Caller n) : Node n :=
  ⟨caller.queue.memreg, caller.queue.ibverbs, caller.locals, caller.globals⟩

def withNode (caller : Caller n) (node : Node n) : Caller n :=
  { caller.withQueue { caller.queue with memreg := node.table, ibverbs := node.verbs } with
    locals := node.locals
    globals := node.globals }

/-- Make a call that works on the memory table. -/
def register (pid : Fin n) (caller : Caller n) (call : Call) : Option (Caller n) :=
  (caller.node.step pid call).map caller.withNode

def resize (caller : Caller n) (call : MessageQueue.Resize) : Option (Caller n) :=
  match caller.queue.resize call with
  | (queue, some .success) => some (caller.withQueue queue)
  | _ => none

/-- Make a call; `none` stands for one that fails. -/
def make (pid : Fin n) (caller : Caller n) : Request → Option (Caller n)
  | .registerLocal mem size => caller.register pid (.registerLocal mem size)
  | .deregisterLocal k => caller.register pid (.deregisterLocal k)
  | .registerGlobal mem size => caller.register pid (.registerGlobal mem size)
  | .deregisterGlobal k => caller.register pid (.deregisterGlobal k)
  | .resizeMesgQueue nMsgs => caller.resize (.mesgQueue nMsgs)
  | .resizeMemreg nRegs => caller.resize (.memreg .none none nRegs)

def makeAll (pid : Fin n) (caller : Caller n) (requests : List Request) : Option (Caller n) :=
  requests.foldlM (make pid) caller

/-- The rest of an SPMD function; its result are the return codes of all its syncs. -/
def run (pid : Fin n) (task : Task) (last : List Request) :
    List (List Request) → Caller n → List Err → Comm n (Interface n × Except Exn (List Err))
  | [], caller, codes =>
      match caller.makeAll pid last with
      | none => .fault
      | some caller => .done (caller.runtime, .ok codes)
  | requests :: supersteps, caller, codes =>
      match caller.makeAll pid requests with
      | none => .fault
      | some caller =>
          (caller.runtime.sync pid task .default).bind fun (runtime, result) =>
            match result with
            | .error exn => .done (runtime, .error exn)
            | .ok code =>
                runtime.completeRequest.bind fun runtime =>
                  run pid task last supersteps { caller with runtime := runtime } (codes ++ [code])

theorem makeAll_cons (pid : Fin n) (caller : Caller n) (request : Request)
    (requests : List Request) :
    caller.makeAll pid (request :: requests) =
      (caller.make pid request).bind fun after => after.makeAll pid requests := rfl

theorem aborted_make {pid : Fin n} {caller after : Caller n} {request : Request}
    (made : caller.make pid request = some after) :
    after.runtime.aborted = caller.runtime.aborted := by
  have registered : ∀ call, caller.register pid call = some after →
      after.runtime.aborted = caller.runtime.aborted := by
    intro call made
    rcases Option.map_eq_some_iff.mp made with ⟨node, _, rfl⟩
    rfl
  have resized : ∀ call, caller.resize call = some after →
      after.runtime.aborted = caller.runtime.aborted := by
    intro call made
    simp only [resize] at made
    split at made
    · cases made
      rfl
    · cases made
  cases request with
  | registerLocal mem size => exact registered _ made
  | deregisterLocal k => exact registered _ made
  | registerGlobal mem size => exact registered _ made
  | deregisterGlobal k => exact registered _ made
  | resizeMesgQueue nMsgs => exact resized _ made
  | resizeMemreg nRegs => exact resized _ made

theorem aborted_makeAll {pid : Fin n} {requests : List Request} {caller after : Caller n}
    (made : caller.makeAll pid requests = some after) :
    after.runtime.aborted = caller.runtime.aborted := by
  induction requests generalizing caller with
  | nil =>
      cases made
      rfl
  | cons request requests ih =>
      rw [makeAll_cons] at made
      rcases Option.bind_eq_some_iff.mp made with ⟨middle, first, rest⟩
      rw [ih rest, aborted_make first]

/-- All calls succeed if syncs change nothing, and no request is active at any sync. -/
def Performs (pid : Fin n) (last : List Request) : List (List Request) → Caller n → Prop
  | [], caller => (caller.makeAll pid last).isSome
  | requests :: supersteps, caller =>
      ∃ after, caller.makeAll pid requests = some after ∧
        after.queue.ibverbs.syncRequest.isActive = false ∧ Performs pid last supersteps after

/-- A process that knows of an abort runs to its end without any collective; all its syncs fail. -/
theorem run_aborted {pid : Fin n} (task : Task) {last : List Request}
    {supersteps : List (List Request)} {caller : Caller n} (codes : List Err)
    (performs : Performs pid last supersteps caller) (aborted : caller.runtime.aborted ≠ 0) :
    ∃ runtime : Interface n, runtime.aborted = caller.runtime.aborted ∧
      caller.run pid task last supersteps codes =
        .done (runtime, .ok (codes ++ List.replicate supersteps.length .fatal)) := by
  induction supersteps generalizing caller codes with
  | nil =>
      rcases Option.isSome_iff_exists.mp performs with ⟨after, made⟩
      refine ⟨after.runtime, aborted_makeAll made, ?_⟩
      simp [run, made]
  | cons requests supersteps ih =>
      rcases performs with ⟨after, made, idle, rest⟩
      have same := aborted_makeAll made
      rw [← same] at aborted
      rcases ih (codes ++ [.fatal]) rest aborted with ⟨runtime, kept, ran⟩
      refine ⟨runtime, kept.trans same, ?_⟩
      have completed : after.runtime.completeRequest = .done after.runtime := by
        simp only [Interface.completeRequest, MessageQueue.completeRequest,
          IBVerbs.completeRequest]
        rw [queue] at idle
        simp [idle]
      simp only [run, made, Interface.sync, if_neg aborted, Program.done_bind, completed, ran]
      simp [List.replicate_succ]

end Caller

namespace Process

variable {n : ℕ}

/-- Run a script under the hook. -/
def hookScript (pid : Fin n) (task : Task) (memRange : ℕ) (device : Device n) (script : Script) :
    Comm n (Except Exn Err × Option (List Err)) :=
  hook pid task memRange device false fun runtime =>
    Caller.run pid task script.last script.supersteps ⟨runtime, [], []⟩ []

/-- The context of a process when its SPMD function begins. -/
def begin (device : Device n) : Caller n := ⟨⟨.initial device, 0⟩, [], []⟩

/-- The collectives before the SPMD function begins. -/
def prologueKinds : List CollectiveKind := [.allreduceMax, .allreduceOr, .barrier]

/-- The hook runs its functions once all contexts are set up. -/
theorem hook_executes_iff {α : Type} [Nonempty (Fin n)] {task : Fin n → Task}
    {memRange : Fin n → ℕ} {device : Fin n → Device n}
    {spmd : Fin n → Interface n → Comm n (Interface n × Except Exn α)}
    {rounds : List (Fin n → Collective n)} {values : Fin n → Except Exn Err × Option α} :
    Executes (fun p => hook p (task p) (memRange p) (device p) false (spmd p)) rounds values ↔
      ∃ later, rounds = (fun p => .allreduceMax (memRange p)) ::
          (fun _ => .allreduceOr false) :: (fun _ => .barrier) :: later ∧
        Executes (fun p => (spmd p ⟨.initial (device p), 0⟩).bind fun (runtime, result) =>
          finish p (task p) runtime result) later values := by
  have head : Executes (fun p => Interface.create (memRange p) (device p) false)
      [fun p => .allreduceMax (memRange p), fun _ => .allreduceOr false]
      (fun p => some ⟨.initial (device p), 0⟩) := by
    simp only [Interface.create, Bool.false_eq_true, if_false]
    apply Comm.executes_allreduceMax
    apply Comm.executes_allreduceOr
    simp only [Bool.false_eq_true, exists_false, decide_false, if_false]
    exact .of_done _
  simp only [hook]
  rw [Executes.bind_iff head]
  constructor
  · rintro ⟨later, rfl, execution⟩
    rcases Executes.call_iff.mp execution with ⟨_, rest, rfl, entered⟩
    exact ⟨rest, rfl, entered⟩
  · rintro ⟨later, rfl, execution⟩
    exact ⟨_, rfl, Comm.executes_barrier execution⟩

theorem hookScript_executes_iff [Nonempty (Fin n)] {task : Fin n → Task} {memRange : Fin n → ℕ}
    {device : Fin n → Device n} {script : Fin n → Script}
    {rounds : List (Fin n → Collective n)}
    {values : Fin n → Except Exn Err × Option (List Err)} :
    Executes (fun p => hookScript p (task p) (memRange p) (device p) (script p)) rounds values ↔
      ∃ later, rounds = (fun p => .allreduceMax (memRange p)) ::
          (fun _ => .allreduceOr false) :: (fun _ => .barrier) :: later ∧
        Executes (fun p => ((begin (device p)).run p (task p) (script p).last
            (script p).supersteps []).bind fun (runtime, result) =>
          finish p (task p) runtime result) later values :=
  hook_executes_iff

end Process

end Talpf
