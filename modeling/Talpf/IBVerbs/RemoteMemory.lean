import Talpf.IBVerbs.DefaultSync
import Talpf.IBVerbs.Keys
import Talpf.Library.Bulk

/-!
# Remote memory access

`World` tells what the processes count; here they have a memory.  A put or a get
hands work requests to the device, which moves their bytes one by one, in any
order and at any time: each byte is first read and later written.  A put is
notified only when all its bytes are in place, and complete only when they are
read; a get is complete only when all its bytes are in place.  The slots of all
processes stay as they are.
-/

namespace Talpf

/-- An address of a process -/
abbrev Address (n : ℕ) := Fin n × ℕ

open Copying

variable {n : ℕ}

/-- The bytes that a work request of a process moves, each from its source to its target -/
def SendWr.copies (pid peer : Fin n) (request : SendWr) : List (Address n × Address n) :=
  (List.range request.sge.length).filterMap fun i =>
    let near : Address n := (pid, request.sge.addr + i)
    let far : Address n := (peer, request.remoteAddr + i)
    match request.opcode with
    | .rdmaWrite | .rdmaWriteWithImm => some (near, far)
    | .rdmaRead => some (far, near)
    | .atomicFetchAndAdd | .atomicCmpAndSwp => none

namespace IBVerbs

namespace Operation

def kind : Operation n → OperationKind
  | .put _ _ _ _ _ _ => .put
  | .get _ _ _ _ _ _ => .get
  | .atomicFetchAndAdd _ _ _ _ _ _ => .atomicFetchAndAdd
  | .atomicCmpAndSwp _ _ _ _ _ _ _ => .atomicCmpAndSwp

/-- The addresses that an operation begins at, here and at its peer -/
def addresses (pid : Fin n) (memreg : CombinedMemoryRegister (MemorySlot n))
    (op : Operation n) : Option (Address n × Address n) :=
  match memreg.lookup op.near.1, memreg.lookup op.far.1 with
  | some near, some far => some ((pid, (near.glob pid).addr + op.near.2),
      (op.peer, (far.glob op.peer).addr + op.far.2))
  | _, _ => none

/-- The copies that a put or a get asks for -/
def copies (pid : Fin n) (memreg : CombinedMemoryRegister (MemorySlot n))
    (op : Operation n) : Set (Address n × Address n) :=
  {copy | ∃ near far, op.addresses pid memreg = some (near, far) ∧ ∃ i < op.size,
    copy = match op.kind with
      | .get => ((far.1, far.2 + i), (near.1, near.2 + i))
      | .put | .atomicFetchAndAdd | .atomicCmpAndSwp =>
          ((near.1, near.2 + i), (far.1, far.2 + i))}

end Operation

/-- A byte that the device has not moved yet -/
structure Pending (n : ℕ) where
  pid : Fin n
  kind : OperationKind
  op : Posted n
  transfer : Transfer (Address n) UInt8

/-- A put is not notified and a get is not complete as long as bytes are left, and a put is not
complete before its bytes are read. -/
def Pending.Open (pending : Pending n) (world : World n) : Prop :=
  match pending.kind with
  | .get => pending.op ∈ (world.parties pending.pid).outstanding
  | .put | .atomicFetchAndAdd | .atomicCmpAndSwp =>
      pending.op ∈ world.travelling pending.op.peer ∧
        (pending.transfer.fetched = none → pending.op ∈ (world.parties pending.pid).outstanding)

/-- The processes with their memory -/
structure Fabric (n : ℕ) where
  world : World n
  memory : Address n → UInt8
  /-- What the device has to do -/
  pending : List (Pending n)
  /-- What was asked for in each superstep -/
  requested : ℕ → Set (Address n × Address n)
  isOpen : ∀ item ∈ pending, item.Open world

/-- No sync of the process is under way. -/
def Party.Computing (party : Party n) : Prop :=
  party.phase = .idle ∧ party.verbs.syncRequest.isActive = false

namespace Fabric

def initial (devices : Fin n → Device n) (memory : Address n → UInt8) : Fabric n where
  world := .initial devices
  memory := memory
  pending := []
  requested := fun _ => ∅
  isOpen := by
    intro item member
    cases member

inductive Action (n : ℕ) where
  | read (pid : Fin n) (address : ℕ) (value : UInt8)
  | write (pid : Fin n) (address : ℕ) (value : UInt8)
  | post (pid : Fin n) (task : Task) (op : Operation n)
  /-- A sync sees that all operations are complete. -/
  | enter (pid : Fin n) (task : Task) (attr : SyncAttr)
  /-- A look completes the request of a process. -/
  | leave (pid : Fin n) (flag : Bool)
  /-- The device reads a byte. -/
  | fetch (item : Pending n)
  /-- The device writes a byte. -/
  | store (item : Pending n)
  /-- Anything else that the processes and the device do -/
  | other (action : World.Action n)

/-- The bytes that the device moves for an operation -/
def transfers (pid : Fin n) (kind : OperationKind) (op : Posted n) (requests : List SendWr) :
    List (Pending n) :=
  (requests.flatMap (SendWr.copies pid op.peer)).map fun copy =>
    ⟨pid, kind, op, ⟨copy.1, copy.2, none⟩⟩

section Steps

variable (maxMsgSize : ℕ) (tables : Fin n → CombinedMemoryRegister (MemorySlot n))
  (rule : Set (Address n × Address n) → Prop)

def Step (before : Fabric n) : Action n → Fabric n → Prop
  | .read pid address value, after => before.memory (pid, address) = value ∧ after = before
  | .write pid address value, after =>
      after = { before with memory := Function.update before.memory (pid, address) value }
  | .post pid task op, after => ∃ requests,
      op.requests pid { (before.world.parties pid).verbs with memreg := tables pid } maxMsgSize
        task = some requests ∧
      before.world.Step (.post pid task op.kind op.peer) after.world ∧
        after.memory = before.memory ∧
        after.pending = before.pending ++ transfers pid op.kind
          ((before.world.parties pid).operation task op.peer) requests ∧
        after.requested = Function.update before.requested (before.world.parties pid).superstep
          (before.requested (before.world.parties pid).superstep ∪ op.copies pid (tables pid))
  | .enter pid task attr, after => before.world.Step (.drain pid task attr) after.world ∧
      after.memory = before.memory ∧ after.pending = before.pending ∧
        after.requested = before.requested
  | .leave pid flag, after => before.world.Step (.processSyncRequest pid flag) after.world ∧
      (before.world.parties pid).superstep < (after.world.parties pid).superstep ∧
        after.memory = before.memory ∧ after.pending = before.pending ∧
        after.requested = before.requested
  | .fetch item, after => ∃ earlier later, before.pending = earlier ++ item :: later ∧
      item.transfer.fetched = none ∧ after.world = before.world ∧
        after.memory = before.memory ∧
        after.pending = earlier ++ { item with transfer :=
          { item.transfer with fetched := some (before.memory item.transfer.source) } } :: later ∧
        after.requested = before.requested
  | .store item, after => ∃ earlier later value, before.pending = earlier ++ item :: later ∧
      item.transfer.fetched = some value ∧ after.world = before.world ∧
        after.memory = Function.update before.memory item.transfer.target value ∧
        after.pending = earlier ++ later ∧ after.requested = before.requested
  | .other action, after => before.world.Step action after.world ∧
      (∀ pid task kind peer, action ≠ .post pid task kind peer) ∧
        (∀ pid task attr, action ≠ .drain pid task attr) ∧
        (∀ p, (after.world.parties p).superstep = (before.world.parties p).superstep) ∧
        after.memory = before.memory ∧ after.pending = before.pending ∧
        after.requested = before.requested

/-- What is asked for in the superstep of a process -/
def requests (fabric : Fabric n) (pid : Fin n) : Set (Address n × Address n) :=
  fabric.requested (fabric.world.parties pid).superstep

/-- Processes read, write and post only while none of their syncs is under way, and they keep away
from the memory that is being copied.  No atomic operations are posted, the numbers of messages are
bounded, the copies of a superstep follow the rule, and all syncs are default syncs. -/
def Permitted (fabric : Fabric n) : Action n → Prop
  | .read pid address _ => (fabric.world.parties pid).Computing ∧
      ¬Target (fabric.requests pid) (pid, address)
  | .write pid address _ => (fabric.world.parties pid).Computing ∧
      ¬Source (fabric.requests pid) (pid, address) ∧
        ¬Target (fabric.requests pid) (pid, address)
  | .post pid task op => (fabric.world.parties pid).Computing ∧ ¬op.IsAtomic ∧
      fabric.world.Bounded (.post pid task op.kind op.peer) ∧
        rule (fabric.requests pid ∪ op.copies pid (tables pid))
  | .enter pid _ attr => (fabric.world.parties pid).verbs.syncRequest.isActive = false ∧
      attr = .default
  | .leave pid flag => fabric.world.Barriers (.processSyncRequest pid flag)
  | .other action => fabric.world.Barriers action
  | .fetch _ | .store _ => True

/-- What a user sees -/
def shows : Action n → List (Bulk.Call (Fin n) (Address n) UInt8)
  | .read pid address value => [.read pid (pid, address) value]
  | .write pid address value => [.write pid (pid, address) value]
  | .post pid _ op => [.request pid (op.copies pid (tables pid))]
  | .enter pid _ _ => [.enter pid]
  | .leave pid _ => [.leave pid]
  | .fetch _ | .store _ | .other _ => []

/-- The runs under a rule, with what users see of them -/
def under {Label : Type} (permitted : Fabric n → Action n → Prop) (shows : Action n → List Label)
    (devices : Fin n → Device n) (memory : Address n → UInt8) :
    Transition.System (Fabric n) (Action n) Label where
  start := initial devices memory
  step := Step maxMsgSize tables
  permitted := permitted
  shows := shows

def system (devices : Fin n → Device n) (memory : Address n → UInt8) :
    Transition.System (Fabric n) (Action n) (Bulk.Call (Fin n) (Address n) UInt8) :=
  under maxMsgSize tables (Permitted tables rule) (shows tables) devices memory

end Steps

end Fabric

end IBVerbs

end Talpf
