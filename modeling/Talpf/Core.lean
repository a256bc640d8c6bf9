import Talpf.Process
import Talpf.MessageQueue.SortedQueue

/-!
# The primitives

The functions of `core.cpp` are the entry points of a process into its context.
All of them but the sync and the rehook look whether the context has aborted
before they call the interface; the sync does so in the interface.
-/

namespace Talpf

open Spmd

/-- The context behind an `lpf_t`, with the message sort of its queue. -/
structure Context (n : ℕ) where
  mesgQueue : SortedQueue n
  aborted : Int

/-- What a primitive returns, and what it writes through its pointers. -/
structure Reply where
  code : Err
  memslot : Option ℕ
  /-- `p` and `free_p` of the parameters of the machine -/
  params : Option (ℕ × ℕ)
deriving DecidableEq, Repr

namespace Reply

def of (code : Err) : Reply := ⟨code, none, none⟩

end Reply

namespace Err

/-- The return code with a number. -/
def ofCode : ℕ → Err
  | 0 => .success
  | 1 => .outOfMemory
  | _ => .fatal

end Err

/-- What a process brings into `rehook`. -/
structure Rehook (n : ℕ) (α : Type) where
  /-- What cloning the communicator leads to at this process. -/
  cloned : Err
  task : Task
  memRange : ℕ
  device : Device n
  outOfMemory : Bool
  spmd : Interface n → Comm n (Interface n × Except Exn α)

/-- The one-sided operations. -/
inductive Operation where
  | put
  | get
  | atomicFetchAndAdd
  | atomicCmpAndSwp
deriving DecidableEq, Repr

/-- A call of a primitive, with the answers that it gets from outside of the context. -/
inductive Primitive (n : ℕ) (α : Type) where
  | sync (task : Task) (attr : SyncAttr)
  /-- The processes of the subgroup run a function. -/
  | exec (subprocess : Comm n (Except Exn Err))
  | rehook (call : Rehook n α)
  | registerGlobal (pointer size : ℕ)
  | registerLocal (pointer size : ℕ)
  | deregister (memslot : ℕ)
  /-- An operation on memory of a peer; `posted` tells whether the device takes it. -/
  | operation (kind : Operation) (peer : Fin n) (posted : Bool)
  | probe (params : ℕ × ℕ)
  | resize (call : SortedQueue.Resize)

namespace Interface

variable {n : ℕ} {α : Type}

/-- Run a function in a new context on the same processes.  Cloning the communicator is
collective; the reduction that follows it stands for both. -/
def rehook (pid : Fin n) (call : Rehook n α) : Comm n (Except Exn Err) :=
  .call (.allreduceMax call.cloned.code) fun (rc : ℕ) =>
    if rc = 0 then
      (Process.hook pid call.task call.memRange call.device call.outOfMemory call.spmd).bind
        fun (status, _) => .done status
    else .done (.ok (.ofCode rc))

end Interface

namespace Context

variable {n : ℕ} {α : Type}

def initial (device : Device n) (msgGrainPower : ℕ) : Context n :=
  ⟨.initial device msgGrainPower, 0⟩

def runtime (ctx : Context n) : Interface n := ⟨ctx.mesgQueue.queue, ctx.aborted⟩

def withRuntime (ctx : Context n) (runtime : Interface n) : Context n :=
  ⟨{ ctx.mesgQueue with queue := runtime.mesgQueue }, runtime.aborted⟩

def withQueue (ctx : Context n) (mesgQueue : SortedQueue n) : Context n :=
  { ctx with mesgQueue := mesgQueue }

/-- A primitive that does nothing but return in a context that has aborted. -/
def unlessAborted (ctx : Context n) (code : Err) (call : Comm n (Context n × Except Exn Reply)) :
    Comm n (Context n × Except Exn Reply) :=
  if ctx.aborted ≠ 0 then .done (ctx, .ok (.of code)) else call

def sync (pid : Fin n) (ctx : Context n) (task : Task) (attr : SyncAttr) :
    Comm n (Context n × Except Exn Reply) :=
  (ctx.runtime.sync pid task attr).bind fun (runtime, result) =>
    .done (ctx.withRuntime runtime, result.map .of)

def rehook (pid : Fin n) (ctx : Context n) (call : Rehook n α) :
    Comm n (Context n × Except Exn Reply) :=
  (Interface.rehook pid call).bind fun result => .done (ctx, result.map .of)

def exec (ctx : Context n) (subprocess : Comm n (Except Exn Err)) :
    Comm n (Context n × Except Exn Reply) :=
  ctx.unlessAborted .fatal (subprocess.bind fun result => .done (ctx, result.map .of))

def registerGlobal (ctx : Context n) (pointer size : ℕ) : Comm n (Context n × Except Exn Reply) :=
  ctx.unlessAborted .success
    (match ctx.mesgQueue.addGlobalReg pointer size with
    | none => .fault
    | some (mesgQueue, slot) => .done (ctx.withQueue mesgQueue, .ok ⟨.success, some slot, none⟩))

def registerLocal (pid : Fin n) (ctx : Context n) (pointer size : ℕ) :
    Comm n (Context n × Except Exn Reply) :=
  ctx.unlessAborted .success
    (match ctx.mesgQueue.addLocalReg pid pointer size with
    | none => .fault
    | some (mesgQueue, result) =>
        .done (ctx.withQueue mesgQueue, result.map fun slot => ⟨.success, some slot, none⟩))

def deregister (ctx : Context n) (memslot : ℕ) : Comm n (Context n × Except Exn Reply) :=
  ctx.unlessAborted .success
    (match ctx.mesgQueue.removeReg memslot with
    | none => .fault
    | some mesgQueue => .done (ctx.withQueue mesgQueue, .ok (.of .success)))

/-- What the verbs layer counts for an operation. -/
def post (kind : Operation) (verbs : IBVerbs n) (peer : Fin n) : IBVerbs n :=
  match kind with
  | .put => verbs.put peer
  | .get => verbs.get peer
  | .atomicFetchAndAdd => verbs.atomicFetchAndAdd peer
  | .atomicCmpAndSwp => verbs.atomicCmpAndSwp peer

def operation (ctx : Context n) (kind : Operation) (peer : Fin n) (posted : Bool) :
    Comm n (Context n × Except Exn Reply) :=
  ctx.unlessAborted .success
    (if posted then
      .done (ctx.withQueue { ctx.mesgQueue with
        queue := { ctx.mesgQueue.queue with
          ibverbs := post kind ctx.mesgQueue.queue.ibverbs peer } }, .ok (.of .success))
    else .done (ctx, .error .exception))

def probe (ctx : Context n) (params : ℕ × ℕ) : Comm n (Context n × Except Exn Reply) :=
  ctx.unlessAborted .success (.done (ctx, .ok ⟨.success, none, some params⟩))

/-- `lpf_resize_memory_register` and `lpf_resize_message_queue` -/
def resize (ctx : Context n) (call : SortedQueue.Resize) : Comm n (Context n × Except Exn Reply) :=
  ctx.unlessAborted .success
    (match ctx.mesgQueue.resize call with
    | (mesgQueue, some code) => .done (ctx.withQueue mesgQueue, .ok (.of code))
    | (mesgQueue, none) => .done (ctx.withQueue mesgQueue, .error .exception))

/-- Call a primitive. -/
def call (pid : Fin n) (ctx : Context n) : Primitive n α → Comm n (Context n × Except Exn Reply)
  | .sync task attr => ctx.sync pid task attr
  | .exec subprocess => ctx.exec subprocess
  | .rehook call => ctx.rehook pid call
  | .registerGlobal pointer size => ctx.registerGlobal pointer size
  | .registerLocal pointer size => ctx.registerLocal pid pointer size
  | .deregister memslot => ctx.deregister memslot
  | .operation kind peer posted => ctx.operation kind peer posted
  | .probe params => ctx.probe params
  | .resize call => ctx.resize call

/-- A call that returns or throws, with what its collectives have returned to this process. -/
def Step (α : Type) (pid : Fin n) (before : Context n) (action : Primitive n α × Except Exn Reply)
    (after : Context n) : Prop :=
  ∃ answers, Follows (before.call pid action.1) answers (after, action.2)

end Context

end Talpf
