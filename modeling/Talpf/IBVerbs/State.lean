import Talpf.Communication
import Talpf.MemoryRegister
import Mathlib.Data.BitVec

/-!
# The state of the verbs layer

`IBVerbs` is the class that talks to the network device.  This file gives its
local state and the parts of its functions that run without a collective:
posting an operation, the two progress functions of the polling task, the sync
request, and the creation of queue pairs.  What the device, the allocator and
the verbs library answer is the field `device`; everything else is computed as
the class computes it.

The two counters of the superstep protocol are kept as the class keeps them:
`syncCounter` is a 32-bit integer that wraps, and the ring `recvCounts` has 1024
entries.  Numbers of messages, which are of type `int` in the class, are integers
here; they do not wrap as long as they stay below `2 ^ 31` (see `Ranges`), and the
rules of runs see to that.
-/

namespace Talpf

/-- A handle of the tasking runtime. -/
abbrev Task := ℕ

/-- A memory region that is registered with the device. -/
structure Mr where
  lkey : ℕ
  rkey : ℕ
deriving DecidableEq, Repr

/-- A slot of the verbs layer. -/
structure MemorySlot (n : ℕ) where
  /-- The registration with the device; there is none for an empty area. -/
  mr : Option Mr
  /-- The areas that all processes registered under this slot. -/
  glob : Fin n → MemoryRegistration

namespace MemorySlot

/-- The slot with which the register is filled when it grows. -/
def null (n : ℕ) : MemorySlot n := ⟨none, fun _ => .null⟩

end MemorySlot

/-- A queue pair, with the address of its peer once it is connected. -/
structure Qp where
  qpNum : ℕ
  /-- `dest_qp_num`, `dlid` and `dgid`. -/
  remote : Option (ℕ × ℕ × ℕ)
deriving DecidableEq, Repr

/-- What code outside of the runtime answers to one process: the verbs library, the device and
the memory allocator.  Null deletion is assumed of the library: the deleter of a shared pointer that
holds the null pointer of a refused request, `ibv_dereg_mr` or `ibv_destroy_qp`, does nothing. -/
structure Device (n : ℕ) where
  /-- The answer to the `k`-th `ibv_reg_mr`. -/
  regMr : ℕ → Option Mr
  regMrCalls : ℕ
  /-- The queue pair number, if any, that the `k`-th `ibv_create_qp` returns. -/
  createQp : ℕ → Option ℕ
  createQpCalls : ℕ
  /-- The shared pointer to what the `k`-th `ibv_create_qp` returns gets its control block. -/
  controlBlock : ℕ → Bool
  /-- `min(max_qp_wr, max_cqe)` -/
  maxSrs : ℕ
  maxMr : ℕ
  lid : ℕ
  /-- The `k`-th reconnection finds a gid; without a gid index it is zero. -/
  gid : ℕ → Option ℕ
  /-- The `k`-th reconnection can allocate its exchange vectors. -/
  exchangeFits : ℕ → Bool
  /-- The `k`-th reconnection can bring the queue pair to a process to its final state. -/
  modifyQp : ℕ → Fin n → Bool
  reconnects : ℕ

/-- The `k`-th attempt to create a queue pair succeeds. -/
def Device.CreatesQp {n : ℕ} (device : Device n) (k : ℕ) : Prop :=
  device.controlBlock k = true ∧ (device.createQp k).isSome

/-- All shared pointers get their control blocks. -/
def Device.BlocksFit {n : ℕ} (device : Device n) : Prop := ∀ k, device.controlBlock k = true

/-- A device that grants every request. -/
def Device.generous (n : ℕ) : Device n where
  regMr k := some ⟨k, k⟩
  regMrCalls := 0
  createQp k := some k
  createQpCalls := 0
  controlBlock _ := true
  maxSrs := 2 ^ 14
  maxMr := 2 ^ 16
  lid := 0
  gid _ := some 0
  exchangeFits _ := true
  modifyQp _ _ := true
  reconnects := 0

/-- The modes of synchronisation; both mode bits together select no case of the switch. -/
inductive SyncMode where
  | default
  | cached
  | msg
  | unknown
deriving DecidableEq, Repr

/-- A synchronisation attribute, decoded. -/
structure SyncAttr where
  mode : SyncMode
  /-- The barrier bit or the default mode. -/
  barrier : Bool
  /-- The bits that are neither mode nor barrier. -/
  value : ℕ
  barrier_of_default : mode = .default → barrier = true
  value_lt : value < 2 ^ 29

namespace SyncAttr

/-- `LPF_SYNC_MODE` -/
def modeMask : BitVec 32 := 0x6 <<< 28

/-- `LPF_SYNC_BARRIER` -/
def barrierMask : BitVec 32 := 0x8 <<< 28

/-- How `IBVerbs::sync` reads its argument. -/
def decode (attr : BitVec 32) : SyncAttr :=
  let syncMode := attr &&& modeMask
  let mode : SyncMode :=
    if syncMode = 0x0 <<< 28 then .default
    else if syncMode = 0x4 <<< 28 then .cached
    else if syncMode = 0x2 <<< 28 then .msg
    else .unknown
  { mode := mode
    barrier := decide (attr &&& barrierMask ≠ 0) || decide (mode = .default)
    value := (attr &&& ~~~(modeMask ||| barrierMask)).toNat
    barrier_of_default := fun isDefault => by simp [isDefault]
    value_lt := by
      rw [BitVec.toNat_and]
      exact Nat.and_lt_two_pow _ (by decide) }

/-- `LPF_SYNC_DEFAULT` -/
def default : SyncAttr := decode (0x0 <<< 28)

/-- `LPF_SYNC_CACHED` -/
def cached : SyncAttr := decode (0x4 <<< 28)

/-- `LPF_SYNC_MSG(N)` -/
def msg (count : BitVec 32) : SyncAttr := decode ((0x2 <<< 28) + count)

@[simp]
theorem mode_default : default.mode = .default := by decide

@[simp]
theorem barrier_default : default.barrier = true := by decide

example : cached.mode = .cached ∧ cached.barrier = false := by decide

example : (msg 3).mode = .msg ∧ (msg 3).value = 3 ∧ (msg 3).barrier = false := by decide

example : (decode ((0x4 <<< 28) ||| barrierMask)).mode = .cached ∧
    (decode ((0x4 <<< 28) ||| barrierMask)).barrier = true := by decide

end SyncAttr

/-- The synchronisation that the polling task is to complete. -/
structure SyncRequest where
  isActive : Bool
  withBarrier : Bool
  remoteMsgs : Int
  task : Option Task
  secondPhase : Bool
deriving DecidableEq, Repr

namespace SyncRequest

def initial : SyncRequest := ⟨false, false, 0, none, false⟩

end SyncRequest

/-- The state of the verbs layer at one of `n` processes. -/
structure IBVerbs (n : ℕ) where
  syncRequest : SyncRequest
  /-- Disconnected queue pairs -/
  stagedQps : Fin n → Option Qp
  /-- Connected queue pairs -/
  connectedQps : Fin n → Option Qp
  /-- Operations posted whose completion has not been polled -/
  numMsgs : Int
  /-- Operations posted to each peer that have not been announced -/
  numMsgsSync : Fin n → Int
  /-- Receives posted to the shared receive queue -/
  postCount : ℕ
  cqSize : ℕ
  syncCached : Bool
  syncCachedValue : Int
  syncCounter : BitVec 32
  recvCounts : Fin 1024 → Int
  memreg : CombinedMemoryRegister (MemorySlot n)
  device : Device n

namespace IBVerbs

variable {n : ℕ}

/-- What the constructor leaves behind. -/
def initial (device : Device n) : IBVerbs n where
  syncRequest := .initial
  stagedQps := fun _ => none
  connectedQps := fun _ => none
  numMsgs := 0
  numMsgsSync := fun _ => 0
  postCount := 0
  cqSize := 1
  syncCached := false
  syncCachedValue := 0
  syncCounter := 0
  recvCounts := fun _ => 0
  memreg := .empty
  device := device

/-- The bookkeeping of one posted list of work requests, of which only the last one is signalled
and notifies the peer. -/
def countOperation (verbs : IBVerbs n) (peer : Fin n) : IBVerbs n :=
  { verbs with
    numMsgs := verbs.numMsgs + 1
    numMsgsSync := Function.update verbs.numMsgsSync peer (verbs.numMsgsSync peer + 1) }

def put (verbs : IBVerbs n) (dstPid : Fin n) : IBVerbs n := verbs.countOperation dstPid

/-- The extra message of a `get` notifies the process that it reads from. -/
def get (verbs : IBVerbs n) (srcPid : Fin n) : IBVerbs n := verbs.countOperation srcPid

def atomicFetchAndAdd (verbs : IBVerbs n) (dstPid : Fin n) : IBVerbs n :=
  verbs.countOperation dstPid

def atomicCmpAndSwp (verbs : IBVerbs n) (dstPid : Fin n) : IBVerbs n :=
  verbs.countOperation dstPid

/-- The immediate value of the notification that an operation carries. -/
def immData (verbs : IBVerbs n) : BitVec 32 := verbs.syncCounter

/-- Poll a batch of local completions, all of them successful. -/
def doLocalProgress (verbs : IBVerbs n) (completions : ℕ) : IBVerbs n :=
  { verbs with numMsgs := verbs.numMsgs - completions }

/-- The entry of the ring that an arriving notification is counted in. -/
def recvIndex (immData : BitVec 32) : Fin 1024 :=
  ⟨immData.toNat % 1024, Nat.mod_lt _ (by decide)⟩

/-- Count one notification. -/
def countRecv (verbs : IBVerbs n) (immData : BitVec 32) : IBVerbs n :=
  { verbs with
    recvCounts := Function.update verbs.recvCounts (recvIndex immData)
      (verbs.recvCounts (recvIndex immData) + 1) }

/-- Poll a batch of arrived notifications. -/
def doRemoteProgress (verbs : IBVerbs n) (immData : List (BitVec 32)) : IBVerbs n :=
  immData.foldl countRecv verbs

/-- The entry of the ring that the sync request looks at.  The remainder of a signed integer is
negative for a negative counter, and then there is no such entry. -/
def syncIndex (verbs : IBVerbs n) : Option (Fin 1024) :=
  let index := verbs.syncCounter.toInt.tmod 1024
  if bounds : 0 ≤ index ∧ index < 1024 then some ⟨index.toNat, by omega⟩ else none

/-- What one call of `processSyncRequest` does. -/
inductive SyncProgress (n : ℕ) where
  /-- The request has to wait. -/
  | waiting
  /-- The messages are counted and the barrier is started. -/
  | barrier (after : IBVerbs n)
  /-- The request is complete and its task is released. -/
  | complete (after : IBVerbs n) (task : Option Task)
  /-- The ring was accessed out of bounds. -/
  | fault

/-- Make a request without barrier inactive and enter the next superstep. -/
def releaseRequest (verbs : IBVerbs n) : IBVerbs n :=
  { verbs with
    syncRequest := { verbs.syncRequest with task := none, isActive := false }
    syncCounter := verbs.syncCounter + 1 }

/-- Make a request inactive after its barrier and enter the next superstep. -/
def finishRequest (verbs : IBVerbs n) : IBVerbs n :=
  { verbs with
    syncRequest :=
      { verbs.syncRequest with task := none, secondPhase := false, isActive := false }
    syncCounter := verbs.syncCounter + 1 }

/-- Subtract the messages that the request waited for. -/
def takeRecvs (verbs : IBVerbs n) (index : Fin 1024) : IBVerbs n :=
  { verbs with
    recvCounts := Function.update verbs.recvCounts index
      (verbs.recvCounts index - verbs.syncRequest.remoteMsgs)
    syncRequest := { verbs.syncRequest with remoteMsgs := 0 } }

/-- One look at an active sync request; `flag` tells whether its barrier has completed. -/
def processSyncRequest (verbs : IBVerbs n) (flag : Bool) : SyncProgress n :=
  if verbs.syncRequest.withBarrier ∧ verbs.syncRequest.secondPhase then
    if flag then .complete verbs.finishRequest verbs.syncRequest.task
    else .waiting
  else
    match verbs.syncIndex with
    | none => .fault
    | some index =>
        if verbs.recvCounts index ≥ verbs.syncRequest.remoteMsgs then
          let taken := verbs.takeRecvs index
          if verbs.syncRequest.withBarrier then
            .barrier { taken with syncRequest := { taken.syncRequest with secondPhase := true } }
          else .complete taken.releaseRequest verbs.syncRequest.task
        else .waiting

/-- Take the numbers of operations that have to be announced. -/
def clearMsgsSync (verbs : IBVerbs n) : IBVerbs n := { verbs with numMsgsSync := fun _ => 0 }

/-- Remember what an exchange of counts has found. -/
def storeCount (verbs : IBVerbs n) (mode : SyncMode) (remoteMsgs : Int) : IBVerbs n :=
  { verbs with
    syncCached := if mode = .default then false else verbs.syncCached
    syncCachedValue := remoteMsgs }

/-- Hand the rest of the sync to the polling task, unless it is still busy with another one. -/
def requestSync (verbs : IBVerbs n) (barrier : Bool) (remoteMsgs : Int) (task : Task) :
    Option (IBVerbs n) :=
  if verbs.syncRequest.isActive then none
  else some { verbs with
    syncRequest :=
      { verbs.syncRequest with
        withBarrier := barrier
        remoteMsgs := remoteMsgs
        task := some task
        isActive := true } }

/-- Create the queue pair to one peer.  Whatever was staged for it is dropped, also when the device
refuses (see null deletion in `Device`); but it stays if the shared pointer to the new pair cannot
be made. -/
def stageQp (verbs : IBVerbs n) (peer : Fin n) : IBVerbs n × Option Exn :=
  let call := verbs.device.createQpCalls
  let created := verbs.device.createQp call
  let asked := { verbs with device := { verbs.device with createQpCalls := call + 1 } }
  if verbs.device.controlBlock call then
    ({ asked with
      stagedQps := Function.update verbs.stagedQps peer (created.map fun qpNum => ⟨qpNum, none⟩) },
      if created.isNone then some .badAlloc else none)
  else (asked, some .badAlloc)

/-- Create the queue pairs to the given peers, up to the first that cannot be created. -/
def stagePeers : List (Fin n) → IBVerbs n → IBVerbs n × Option Exn
  | [], verbs => (verbs, none)
  | peer :: peers, verbs =>
      match verbs.stageQp peer with
      | (staged, some thrown) => (staged, some thrown)
      | (staged, none) => stagePeers peers staged

def stageQPs (verbs : IBVerbs n) : IBVerbs n × Option Exn := stagePeers (List.finRange n) verbs

/-- Resize the completion queues, stage queue pairs and post the receives. -/
def resizeMesgq (verbs : IBVerbs n) (size : ℕ) : IBVerbs n × Option Exn :=
  let cqSize := min size (verbs.device.maxSrs / 4)
  let remoteSize := min (cqSize * n) (verbs.device.maxSrs / 4)
  match stageQPs { verbs with cqSize := cqSize } with
  | (staged, some thrown) => (staged, some thrown)
  | (staged, none) =>
      -- the receive queue only ever grows
      ({ staged with postCount := max staged.postCount remoteSize }, none)

/-- Grow the register of memory slots. -/
def resizeMemreg (globalFaults localFaults : ReserveFaults) (verbs : IBVerbs n) (size : ℕ) :
    IBVerbs n × Option Exn :=
  if size > 2 ^ 31 - 1 then (verbs, some .exception)
  else if size > verbs.device.maxMr then (verbs, some .badAlloc)
  else
    let (memreg, thrown) := verbs.memreg.reserve globalFaults localFaults (.null n) size
    ({ verbs with memreg := memreg }, thrown)

end IBVerbs

end Talpf
