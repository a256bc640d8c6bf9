import Talpf.MessageQueue

/-!
# The interface and the hook

`Interface` is the context behind an `lpf_t`.  It remembers how many processes
had aborted when a sync failed; from then on no sync takes part in
communication any more.  `hook` runs an SPMD function in a new context and, if
the function returns in a context that has not aborted, votes once more, so
that a process that returns early is noticed by the others.
-/

namespace Talpf

structure Interface (n : ℕ) where
  mesgQueue : MessageQueue n
  /-- How many processes had aborted at the last sync. -/
  aborted : Int

namespace Interface

open Spmd

variable {n : ℕ}

/-- Set up a context.  `outOfMemory` tells that a member's construction throws
`std::bad_alloc` after its own collectives; the handler of the constructor reduces once more,
also when the constructor itself has thrown on behalf of another process. -/
def create (memRange : ℕ) (device : Device n) (outOfMemory : Bool) :
    Comm n (Option (Interface n)) :=
  .call (.allreduceMax memRange) fun _ =>
    if outOfMemory then .call (.allreduceOr true) fun _ => .done none
    else
      .call (.allreduceOr false) fun (failed : Bool) =>
        if failed then .call (.allreduceOr true) fun _ => .done none
        else .done (some ⟨.initial device, 0⟩)

/-- Tell all other processes at their next sync that this one has aborted. -/
def abort (pid : Fin n) (task : Task) (runtime : Interface n) :
    Comm n (Interface n × Option Exn) :=
  if runtime.aborted ≠ 0 then .fault
  else
    (runtime.mesgQueue.sync pid task true .default).bind fun (mesgQueue, voted) =>
      match voted with
      | .ok aborted => .done (⟨mesgQueue, aborted⟩, none)
      | .error exn => .done (⟨mesgQueue, runtime.aborted⟩, some exn)

/-- End a superstep.  An exception of the verbs layer escapes to the caller. -/
def sync (pid : Fin n) (task : Task) (runtime : Interface n) (attr : SyncAttr) :
    Comm n (Interface n × Except Exn Err) :=
  if runtime.aborted = 0 then
    (runtime.mesgQueue.sync pid task false attr).bind fun (mesgQueue, voted) =>
      match voted with
      | .ok aborted =>
          .done (⟨mesgQueue, aborted⟩, .ok (if aborted = 0 then .success else .fatal))
      | .error exn => .done (⟨mesgQueue, runtime.aborted⟩, .error exn)
  else .done (runtime, .ok .fatal)

/-- Let the polling task complete the request of the last sync. -/
def completeRequest (runtime : Interface n) : Comm n (Interface n) :=
  (runtime.mesgQueue.completeRequest).bind fun mesgQueue =>
    .done { runtime with mesgQueue := mesgQueue }

end Interface

namespace Process

open Spmd

variable {n : ℕ} {α : Type}

/-- What `hook` does after an exception: abort and fail.  An exception during the abort escapes,
except that the outermost handler turns `std::bad_alloc` into a return code. -/
def rescue (pid : Fin n) (task : Task) (runtime : Interface n) : Comm n (Except Exn Err) :=
  (runtime.abort pid task).bind fun (_, thrown) =>
    match thrown with
    | none => .done (.ok .fatal)
    | some .badAlloc => .done (.ok .outOfMemory)
    | some exn => .done (.error exn)

/-- What `hook` does once the SPMD function has returned. -/
def leave (pid : Fin n) (task : Task) (runtime : Interface n) : Comm n (Except Exn Err) :=
  if runtime.aborted = 0 then
    (runtime.abort pid task).bind fun (runtime, thrown) =>
      match thrown with
      | some _ => rescue pid task runtime
      | none =>
          -- a smaller count means that this process has stopped early
          .done (.ok (if runtime.aborted ≠ n then .fatal else .success))
  else .done (.ok .fatal)

/-- What `hook` does when the SPMD function has ended, normally or by an exception. -/
def finish (pid : Fin n) (task : Task) (runtime : Interface n) (result : Except Exn α) :
    Comm n (Except Exn Err × Option α) :=
  match result with
  | .ok value => (leave pid task runtime).bind fun status => .done (status, some value)
  | .error _ => (rescue pid task runtime).bind fun status => .done (status, none)

/-- Run an SPMD function in a new context and return its own result as well. -/
def hook (pid : Fin n) (task : Task) (memRange : ℕ) (device : Device n) (outOfMemory : Bool)
    (spmd : Interface n → Comm n (Interface n × Except Exn α)) :
    Comm n (Except Exn Err × Option α) :=
  (Interface.create memRange device outOfMemory).bind fun created =>
    match created with
    | none => .done (.ok .outOfMemory, none)
    | some runtime =>
        .call .barrier fun _ =>
          (spmd runtime).bind fun (runtime, result) => finish pid task runtime result

end Process

end Talpf
