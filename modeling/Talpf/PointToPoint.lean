import Talpf.Library.Channels
import Mathlib.Algebra.Group.Nat.Defs
import Mathlib.Data.Fintype.Basic
import Mathlib.Logic.Function.Basic

/-!
# Point-to-point messages of any size

This file models `isend`, `irecv` and `iwaitall` of `Comm::Impl`.  A message that
is larger than MPI can send is sent in chunks, all with the tag of the message.
The first chunk is posted by `isend`.  In `iwaitall` a process continues its
large sends as their last chunks complete, and receives chunks from any sender
with any tag: the tag is an index into the table of receives.

A send may complete at any time after it has been posted, and chunks with one
source, destination and tag are received in the order in which they were posted.
Every send and every receive has a buffer of its own, and a pointer is an offset
into it.
-/

namespace Talpf

namespace PointToPoint

universe u

variable {n : ℕ} {Byte : Type u}

/-- The maximum of an `int`. -/
def maxInt : ℕ := 2 ^ 31 - 1

/-- The arguments of `isend`, with the bytes to send. -/
structure Isend (n : ℕ) (Byte : Type u) where
  buf : List Byte
  destPid : Fin n
  tag : ℕ

/-- The arguments of `irecv`, with what the buffer contains before. -/
structure Irecv (n : ℕ) (Byte : Type u) where
  buf : List Byte
  srcPid : Fin n
  tag : ℕ

inductive Call (n : ℕ) (Byte : Type u)
  | isend (send : Isend n Byte)
  | irecv (recv : Irecv n Byte)

/-- What each process reserves and calls before it calls `iwaitall`. -/
structure Plan (n : ℕ) (Byte : Type u) where
  maxMpiMsgSize : ℕ
  /-- `Config::getMaxMPIMsgSize` refuses to return less. -/
  max_pos : 0 < maxMpiMsgSize
  reserved : Fin n → ℕ
  calls : Fin n → List (Call n Byte)

/-- A chunk on its way, with the number of its message among those of its source. -/
structure Chunk (n : ℕ) (Byte : Type u) where
  src : Fin n
  dst : Fin n
  tag : ℕ
  mesg : ℕ
  bytes : List Byte

namespace Chunk

/-- Chunks of one source with one tag do not overtake each other. -/
def route (chunk : Chunk n Byte) : Fin n × Fin n × ℕ := (chunk.src, chunk.dst, chunk.tag)

def message (chunk : Chunk n Byte) : Fin n × ℕ := (chunk.src, chunk.mesg)

end Chunk

/-- `MPI_REQUEST_NULL`, or the send of a chunk that may not have completed. -/
abbrev Request (n : ℕ) (Byte : Type u) : Type u := Option (Chunk n Byte)

/-- `Comm::Impl::Send`; `addr` is an offset into the buffer. -/
structure Send (n : ℕ) (Byte : Type u) where
  buf : List Byte
  addr : ℕ
  size : ℕ
  dstPid : Fin n
  tag : ℕ
  mesg : ℕ

/-- A position in one of the receive buffers of a process. -/
structure Pointer where
  buffer : ℕ
  offset : ℕ

inductive Phase
  | posting
  | testing
  | continuing
  | probing
  | waiting
  | barrier
  | returned
  | failed
deriving DecidableEq, Repr

/-- The variables of one process; `sendIndices` is the size of the array. -/
structure Local (n : ℕ) (Byte : Type u) where
  phase : Phase
  /-- The calls that are left. -/
  todo : List (Call n Byte)
  /-- How many messages the process has begun to send. -/
  sent : ℕ
  imsgs : List (Request n Byte)
  irecvs : List (Pointer × ℕ)
  emptyRecvs : ℕ
  largeSends : List (Send n Byte)
  largeRequests : List (Request n Byte)
  sendIndices : ℕ
  /-- The indices of completed sends that are still to be handled. -/
  ready : List ℕ
  nMsgs : ℕ
  /-- The receive buffers. -/
  memory : List (List Byte)

/-- Overwrites a part of a buffer. -/
def write (buffer : List Byte) (offset : ℕ) (bytes : List Byte) : List Byte :=
  buffer.take offset ++ bytes ++ buffer.drop (offset + bytes.length)

/-- Swaps an element with the last one, and removes it there. -/
def swapPop {α : Type u} (i : ℕ) (items : List α) : List α :=
  match items.getLast? with
  | none => items
  | some last => (items.set i last).dropLast

namespace Local

/-- A fresh communicator after `reserveMsgs`, which throws `bad_alloc` for too many messages. -/
def initial (plan : Plan n Byte) (p : Fin n) : Local n Byte where
  phase := if plan.reserved p > maxInt then .failed else .posting
  todo := plan.calls p
  sent := 0
  imsgs := []
  irecvs := []
  emptyRecvs := 0
  largeSends := []
  largeRequests := []
  sendIndices := plan.reserved p
  ready := []
  nMsgs := 0
  memory := []

section

variable (maxMpiMsgSize : ℕ) (p : Fin n) (process : Local n Byte)

/-- An assertion does not hold, or MPI reports an error. -/
def fail : Local n Byte := { process with phase := .failed }

/-- Posts the first chunk of a message, unless it is empty. -/
def isend (send : Isend n Byte) : Local n Byte × List (Chunk n Byte) :=
  let size := min maxMpiMsgSize send.buf.length
  let chunk : Chunk n Byte := ⟨p, send.destPid, send.tag, process.sent, send.buf.take size⟩
  let (req, new) := if 0 < size then (some chunk, [chunk]) else (none, [])
  if size < send.buf.length then
    let large : Send n Byte :=
      ⟨send.buf, 0, send.buf.length, send.destPid, send.tag, process.sent⟩
    ({ process with
        sent := process.sent + 1
        largeSends := process.largeSends ++ [large]
        largeRequests := process.largeRequests ++ [req] }, new)
  else ({ process with sent := process.sent + 1, imsgs := process.imsgs ++ [req] }, new)

def irecv (recv : Irecv n Byte) : Local n Byte :=
  if recv.tag = process.irecvs.length then
    { process with
      irecvs := process.irecvs ++ [(⟨process.memory.length, 0⟩, recv.buf.length)]
      emptyRecvs := if recv.buf.length = 0 then process.emptyRecvs + 1 else process.emptyRecvs
      memory := process.memory ++ [recv.buf] }
  else process.fail

/-- The head of the loop: it goes on, or the process waits for its other sends. -/
def head : Local n Byte :=
  if 0 < process.nMsgs ∨ process.largeSends ≠ [] then { process with phase := .testing }
  else { process with phase := .waiting, irecvs := [], emptyRecvs := 0 }

def iwaitall : Local n Byte :=
  head { process with nMsgs := process.irecvs.length - process.emptyRecvs }

/-- `MPI_Testsome` reports the sends at these indices, and their requests become null. -/
def testsome (ready : List ℕ) : Local n Byte :=
  if process.largeRequests.length ≤ process.sendIndices then
    { process with
      phase := .continuing
      ready := ready
      largeRequests := process.largeRequests.mapIdx fun j req =>
        if j ∈ ready then none else req }
  else process.fail

/-- Posts the next chunk of the large send at an index; the last one becomes a normal send. -/
def resume (sendIndex : ℕ) (ready : List ℕ) : Local n Byte × List (Chunk n Byte) :=
  match process.largeSends[sendIndex]? with
  | none => (process.fail, [])
  | some send =>
      if send.size ≤ maxMpiMsgSize then (process.fail, [])
      else
        let addr := send.addr + maxMpiMsgSize
        let size := send.size - maxMpiMsgSize
        let chunk : Chunk n Byte := ⟨p, send.dstPid, send.tag, send.mesg,
          (send.buf.drop addr).take (min maxMpiMsgSize size)⟩
        let process := { process with
          ready := ready
          largeSends := process.largeSends.set sendIndex { send with addr := addr, size := size } }
        if size ≤ maxMpiMsgSize then
          ({ process with imsgs := process.imsgs ++ [some chunk] }, [chunk])
        else
          ({ process with largeRequests := process.largeRequests.set sendIndex (some chunk) },
            [chunk])

/-- Removes the large sends below an index whose requests are null, from the last to the first. -/
def dequeue : ℕ → Local n Byte → Local n Byte
  | 0, process => process
  | i + 1, process =>
      match process.largeRequests[i]? with
      | some none =>
          dequeue i { process with
            largeRequests := swapPop i process.largeRequests
            largeSends := swapPop i process.largeSends }
      | _ => dequeue i process

/-- What follows on the continuations: the loop looks for a message. -/
def probe : Local n Byte :=
  { dequeue process.largeRequests.length process with phase := .probing }

/-- Receives a chunk into the buffer that its tag says, and looks at the head of the loop. -/
def receive (chunk : Chunk n Byte) : Local n Byte :=
  match process.irecvs[chunk.tag]? with
  | none => process.fail
  | some (buf, size) =>
      if size = 0 ∨ min maxMpiMsgSize size < chunk.bytes.length then process.fail
      else
        let process := { process with
          memory := process.memory.modify buf.buffer fun buffer =>
            write buffer buf.offset chunk.bytes }
        if maxMpiMsgSize < size then
          head { process with
            irecvs := process.irecvs.set chunk.tag
              (⟨buf.buffer, buf.offset + maxMpiMsgSize⟩, size - maxMpiMsgSize) }
        else head { process with nMsgs := process.nMsgs - 1 }

/-- `MPI_Waitall` has returned. -/
def waitall : Local n Byte := { process with phase := .barrier, imsgs := [] }

end

end Local

/-- All processes and the chunks between them, with all chunks ever posted or received. -/
structure State (n : ℕ) (Byte : Type u) where
  process : Fin n → Local n Byte
  inFlight : List (Chunk n Byte)
  posted : List (Chunk n Byte)
  taken : List (Chunk n Byte)

namespace State

def initial (plan : Plan n Byte) : State n Byte := ⟨Local.initial plan, [], [], []⟩

def set (state : State n Byte) (p : Fin n) (process : Local n Byte) : State n Byte :=
  { state with process := Function.update state.process p process }

def post (state : State n Byte) (new : List (Chunk n Byte)) : State n Byte :=
  { state with inFlight := state.inFlight ++ new, posted := state.posted ++ new }

def take (state : State n Byte) (chunk : Chunk n Byte) (rest : List (Chunk n Byte)) :
    State n Byte :=
  { state with inFlight := rest, taken := state.taken ++ [chunk] }

end State

/-- The process has entered the barrier at the end of `iwaitall`, or has left it. -/
def Local.Entered (process : Local n Byte) : Prop :=
  process.phase = .barrier ∨ process.phase = .returned

inductive Step (plan : Plan n Byte) (state : State n Byte) : State n Byte → Prop
  | isend {p : Fin n} {send : Isend n Byte} {rest : List (Call n Byte)}
      (posting : (state.process p).phase = .posting)
      (next : (state.process p).todo = .isend send :: rest) :
      Step plan state
        (let called := { state.process p with todo := rest }.isend plan.maxMpiMsgSize p send
        (state.set p called.1).post called.2)
  | irecv {p : Fin n} {recv : Irecv n Byte} {rest : List (Call n Byte)}
      (posting : (state.process p).phase = .posting)
      (next : (state.process p).todo = .irecv recv :: rest) :
      Step plan state (state.set p ({ state.process p with todo := rest }.irecv recv))
  | iwaitall {p : Fin n} (posting : (state.process p).phase = .posting)
      (done : (state.process p).todo = []) :
      Step plan state (state.set p (state.process p).iwaitall)
  | testsome {p : Fin n} {ready : List ℕ} (testing : (state.process p).phase = .testing)
      (distinct : ready.Nodup)
      (active : ∀ j ∈ ready, ∃ chunk, (state.process p).largeRequests[j]? = some (some chunk)) :
      Step plan state (state.set p ((state.process p).testsome ready))
  | resume {p : Fin n} {j : ℕ} {ready : List ℕ}
      (continuing : (state.process p).phase = .continuing)
      (next : (state.process p).ready = j :: ready) :
      Step plan state
        (let continued := (state.process p).resume plan.maxMpiMsgSize p j ready
        (state.set p continued.1).post continued.2)
  | dequeue {p : Fin n} (continuing : (state.process p).phase = .continuing)
      (handled : (state.process p).ready = []) :
      Step plan state (state.set p (state.process p).probe)
  | idle {p : Fin n} (probing : (state.process p).phase = .probing) :
      Step plan state (state.set p (state.process p).head)
  | receive {p : Fin n} {chunk : Chunk n Byte} {rest : List (Chunk n Byte)}
      (probing : (state.process p).phase = .probing) (arrived : chunk.dst = p)
      (next : Channels.Takes Chunk.route state.inFlight chunk rest) :
      Step plan state
        ((state.set p ((state.process p).receive plan.maxMpiMsgSize chunk)).take chunk rest)
  | waitall {p : Fin n} (waiting : (state.process p).phase = .waiting) :
      Step plan state (state.set p (state.process p).waitall)
  | leave {p : Fin n} (entered : (state.process p).phase = .barrier)
      (all : ∀ q, (state.process q).Entered) :
      Step plan state (state.set p { state.process p with phase := .returned })

/-- The states that some order of deliveries and completions leads to. -/
def Reachable (plan : Plan n Byte) (state : State n Byte) : Prop :=
  Relation.ReflTransGen (Step plan) (State.initial plan) state

namespace Call

def isend? : Call n Byte → Option (Isend n Byte)
  | isend send => some send
  | irecv _ => none

def irecv? : Call n Byte → Option (Irecv n Byte)
  | isend _ => none
  | irecv recv => some recv

end Call

namespace Plan

variable (plan : Plan n Byte)

def isends (p : Fin n) : List (Isend n Byte) := (plan.calls p).filterMap Call.isend?

def irecvs (p : Fin n) : List (Irecv n Byte) := (plan.calls p).filterMap Call.irecv?

/-- Tags number the receives of a process, and each belongs to one send of as many bytes. -/
structure Paired : Prop where
  reserved : ∀ p, plan.reserved p ≤ maxInt
  isends_le : ∀ p, (plan.isends p).length ≤ plan.reserved p
  irecvs_le : ∀ p, (plan.irecvs p).length ≤ plan.reserved p
  tags : ∀ p, (plan.irecvs p).map Irecv.tag = List.range (plan.irecvs p).length
  received : ∀ (src : Fin n) (mesg : ℕ) (send : Isend n Byte),
    (plan.isends src)[mesg]? = some send →
      ∃ recv : Irecv n Byte, (plan.irecvs send.destPid)[send.tag]? = some recv ∧
        recv.srcPid = src ∧ recv.buf.length = send.buf.length
  sent : ∀ (dst : Fin n) (tag : ℕ) (recv : Irecv n Byte),
    (plan.irecvs dst)[tag]? = some recv →
      ∃ (mesg : ℕ) (send : Isend n Byte), (plan.isends recv.srcPid)[mesg]? = some send ∧
        send.destPid = dst ∧ send.tag = tag
  unique : ∀ (src src' : Fin n) (mesg mesg' : ℕ) (send send' : Isend n Byte),
    (plan.isends src)[mesg]? = some send → (plan.isends src')[mesg']? = some send' →
      send.destPid = send'.destPid → send.tag = send'.tag → src = src' ∧ mesg = mesg'

end Plan

end PointToPoint

end Talpf
