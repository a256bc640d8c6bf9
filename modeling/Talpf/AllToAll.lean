import Talpf.Library.Channels
import Talpf.Library.Transition
import Mathlib.Data.Fintype.Basic

/-!
# The sparse all-to-all exchange

This file models the variant of `Comm::allToAll` that follows the NBX algorithm,
for any number of calls in a row on one communicator.  A process posts the first
chunk of each of its messages as a synchronous send.  Then it alternates between
probing for a chunk to receive and looking after its own sends: a message whose
chunk has been received is continued with its next chunk or removed from the
list.  With an empty list, the process enters a non-blocking barrier, and it
returns when the barrier is over.

All calls use one tag.  Chunks between two processes are received in the order
in which they were posted.  What a process does between two steps that depend on
others is one step here: which of the chunks in flight a probe finds, which
completed sends it is told of, and when it is told of the end of the barrier is
open.
-/

namespace Talpf

namespace AllToAll

universe u

variable {n : ℕ} {Byte : Type u}

/-- A message: `sendOffsets[i]`, `sendCounts[i]` and `sendPids[i]`. -/
structure Send (n : ℕ) where
  offset : ℕ
  count : ℕ
  pid : Fin n

/-- The arguments of one call. -/
structure Exchange (n : ℕ) (Byte : Type u) where
  sendData : ℕ → Byte
  sends : List (Send n)
  recvSize : ℕ

/-- All calls that the processes make one after the other. -/
structure Plan (n : ℕ) (Byte : Type u) where
  maxMsgSize : ℕ
  /-- `Config::getMaxMPIMsgSize` refuses to return less. -/
  max_pos : 0 < maxMsgSize
  calls : ℕ
  exchange : ℕ → Fin n → Exchange n Byte

/-- A chunk on its way, with the message it belongs to. -/
structure Chunk (n : ℕ) (Byte : Type u) where
  src : Fin n
  dst : Fin n
  call : ℕ
  mesg : ℕ
  offset : ℕ
  bytes : List Byte

namespace Chunk

/-- Chunks of one source for one destination do not overtake each other. -/
def route (chunk : Chunk n Byte) : Fin n × Fin n := (chunk.src, chunk.dst)

/-- The message that the chunk is a part of. -/
def message (chunk : Chunk n Byte) : Fin n × ℕ × ℕ := (chunk.src, chunk.call, chunk.mesg)

end Chunk

/-- A message that is not finished, with the request of its last chunk. -/
structure Entry (n : ℕ) (Byte : Type u) where
  offset : ℕ
  count : ℕ
  pid : Fin n
  mesg : ℕ
  request : Option (Chunk n Byte)

namespace Entry

/-- The bytes `[offset, offset + size)` of a buffer. -/
def slice (data : ℕ → Byte) (offset size : ℕ) : List Byte :=
  (List.range size).map fun i => data (offset + i)

section

variable (maxMsgSize : ℕ) (src : Fin n) (call : ℕ) (data : ℕ → Byte) (entry : Entry n Byte)

/-- The chunk that the entry continues with. -/
def chunk : Chunk n Byte :=
  ⟨src, entry.pid, call, entry.mesg, entry.offset,
    slice data entry.offset (min maxMsgSize entry.count)⟩

/-- `MPI_Issend` of the next chunk. -/
def issend : Entry n Byte :=
  { entry with
    offset := entry.offset + min maxMsgSize entry.count
    count := entry.count - min maxMsgSize entry.count
    request := some (chunk maxMsgSize src call data entry) }

/-- The first chunk of a message, unless it is empty. -/
def begin : Entry n Byte × List (Chunk n Byte) :=
  if 0 < min maxMsgSize entry.count then
    (entry.issend maxMsgSize src call data, [entry.chunk maxMsgSize src call data])
  else (entry, [])

/-- The next chunk of a message whose last chunk has been received, if there is one. -/
def continue_ : Entry n Byte × List (Chunk n Byte) :=
  if 0 < entry.count then
    (entry.issend maxMsgSize src call data, [entry.chunk maxMsgSize src call data])
  else ({ entry with request := none }, [])

end

/-- The entry can be removed from the list. -/
def finished (entry : Entry n Byte) : Bool := entry.count == 0 && entry.request.isNone

end Entry

/--
Removes the finished entries: an entry is swapped with the last one, the list is
shortened, and the entry that has come to its place is looked at next.
-/
def compact (kept : List (Entry n Byte)) : List (Entry n Byte) → List (Entry n Byte)
  | [] => kept
  | entry :: rest =>
      if entry.finished then
        match _found : rest.getLast? with
        | none => kept
        | some last => compact kept (last :: rest.dropLast)
      else compact (kept ++ [entry]) rest
termination_by rest => rest.length
decreasing_by
  · cases rest with
    | nil => simp at _found
    | cons head rest => simp
  · simp

inductive Phase
  | outside
  | probing
  | testing
  | thrown
deriving DecidableEq, Repr

/-- What a call leaves its caller with, and the chunks it consists of. -/
structure Result (n : ℕ) (Byte : Type u) where
  recvData : List Byte
  received : ℕ
  log : List (Chunk n Byte)

/-- The variables of one process. -/
structure Local (n : ℕ) (Byte : Type u) where
  phase : Phase
  entries : List (Entry n Byte)
  recvSize : ℕ
  recvData : List Byte
  received : ℕ
  barrierActive : Bool
  /-- How many barriers the process has entered. -/
  barriers : ℕ
  /-- The chunks received in this call. -/
  log : List (Chunk n Byte)
  /-- The calls that have returned. -/
  results : List (Result n Byte)

namespace Local

/-- The number of the call that the process is in, or that it makes next. -/
def call (process : Local n Byte) : ℕ := process.results.length

def initial : Local n Byte := ⟨.outside, [], 0, [], 0, false, 0, [], []⟩

section

variable (plan : Plan n Byte) (p : Fin n) (process : Local n Byte)

/-- The entry of a message in the list that the call begins with. -/
def entry (send : Send n) (mesg : ℕ) : Entry n Byte :=
  ⟨send.offset, send.count, send.pid, mesg, none⟩

/-- The entries of the current call after their first chunks, with these chunks. -/
def opened : List (Entry n Byte × List (Chunk n Byte)) :=
  let exchange := plan.exchange process.call p
  exchange.sends.mapIdx fun mesg send =>
    (entry send mesg).begin plan.maxMsgSize p process.call exchange.sendData

def start : Local n Byte :=
  { process with
    phase := .probing
    entries := (process.opened plan p).map Prod.fst
    recvSize := (plan.exchange process.call p).recvSize
    recvData := []
    received := 0
    barrierActive := false
    log := [] }

/-- No message has arrived. -/
def probe : Local n Byte := { process with phase := .testing }

/-- Receives a chunk for which there is room. -/
def receive (chunk : Chunk n Byte) : Local n Byte :=
  { process with
    phase := .testing
    recvSize := process.recvSize - chunk.bytes.length
    recvData := process.recvData ++ chunk.bytes
    received := process.received + chunk.bytes.length
    log := process.log ++ [chunk] }

/-- Continues the messages at the given indices one after the other. -/
def continueAll : List ℕ → List (Entry n Byte) → List (Entry n Byte) × List (Chunk n Byte)
  | [], entries => (entries, [])
  | j :: ready, entries =>
      match entries[j]? with
      | none => continueAll ready entries
      | some entry =>
          let (entry, new) := entry.continue_ plan.maxMsgSize p process.call
            (plan.exchange process.call p).sendData
          let (entries, more) := continueAll ready (entries.set j entry)
          (entries, new ++ more)

/-- Looks after the sends, of which those at the given indices have completed. -/
def test (ready : List ℕ) : Local n Byte :=
  let entries := compact [] (process.continueAll plan p ready process.entries).1
  if entries.isEmpty then
    { process with
      phase := .probing
      entries := entries
      barrierActive := true
      barriers := process.barriers + 1 }
  else { process with phase := .probing, entries := entries }

/-- The barrier is not over, as far as the process is told. -/
def wait : Local n Byte := { process with phase := .probing }

def leave : Local n Byte :=
  { process with
    phase := .outside
    barrierActive := false
    log := []
    results := process.results ++ [⟨process.recvData, process.received, process.log⟩] }

end

end Local

/-- All processes and the chunks between them, with all chunks ever posted or received. -/
structure State (n : ℕ) (Byte : Type u) where
  process : Fin n → Local n Byte
  inFlight : List (Chunk n Byte)
  posted : List (Chunk n Byte)
  taken : List (Chunk n Byte)

namespace State

def initial : State n Byte := ⟨fun _ => .initial, [], [], []⟩

def set (state : State n Byte) (p : Fin n) (process : Local n Byte) : State n Byte :=
  { state with process := Function.update state.process p process }

/-- Posts chunks behind those in flight. -/
def post (state : State n Byte) (new : List (Chunk n Byte)) : State n Byte :=
  { state with inFlight := state.inFlight ++ new, posted := state.posted ++ new }

def take (state : State n Byte) (chunk : Chunk n Byte) (rest : List (Chunk n Byte)) :
    State n Byte :=
  { state with inFlight := rest, taken := state.taken ++ [chunk] }

end State

inductive Action (n : ℕ) (Byte : Type u)
  | start (p : Fin n)
  | probe (p : Fin n)
  | receive (p : Fin n) (chunk : Chunk n Byte)
  | overflow (p : Fin n) (chunk : Chunk n Byte)
  | test (p : Fin n) (ready : List ℕ)
  | wait (p : Fin n)
  | leave (p : Fin n)

/-- `MPI_Testsome` may name these entries: their last chunks have been received. -/
def Completed (entries : List (Entry n Byte)) (inFlight : List (Chunk n Byte)) (ready : List ℕ) :
    Prop :=
  ready.Nodup ∧ ∀ j ∈ ready, ∃ entry chunk, entries[j]? = some entry ∧
    entry.request = some chunk ∧ chunk ∉ inFlight

inductive Step (plan : Plan n Byte) (state : State n Byte) :
    Action n Byte → State n Byte → Prop
  | start {p : Fin n} (between : (state.process p).phase = .outside)
      (more : (state.process p).call < plan.calls) :
      Step plan state (.start p)
        ((state.set p ((state.process p).start plan p)).post
          (((state.process p).opened plan p).flatMap Prod.snd))
  | probe {p : Fin n} (probing : (state.process p).phase = .probing) :
      Step plan state (.probe p) (state.set p (state.process p).probe)
  | receive {p : Fin n} {chunk : Chunk n Byte} {rest : List (Chunk n Byte)}
      (probing : (state.process p).phase = .probing) (arrived : chunk.dst = p)
      (next : Channels.Takes Chunk.route state.inFlight chunk rest)
      (room : chunk.bytes.length ≤ (state.process p).recvSize) :
      Step plan state (.receive p chunk)
        ((state.set p ((state.process p).receive chunk)).take chunk rest)
  | overflow {p : Fin n} {chunk : Chunk n Byte} {rest : List (Chunk n Byte)}
      (probing : (state.process p).phase = .probing) (arrived : chunk.dst = p)
      (next : Channels.Takes Chunk.route state.inFlight chunk rest)
      (full : (state.process p).recvSize < chunk.bytes.length) :
      Step plan state (.overflow p chunk)
        (state.set p { state.process p with phase := .thrown })
  | test {p : Fin n} {ready : List ℕ} (testing : (state.process p).phase = .testing)
      (sending : (state.process p).barrierActive = false)
      (completed : Completed (state.process p).entries state.inFlight ready) :
      Step plan state (.test p ready)
        ((state.set p ((state.process p).test plan p ready)).post
          ((state.process p).continueAll plan p ready (state.process p).entries).2)
  | wait {p : Fin n} (testing : (state.process p).phase = .testing)
      (active : (state.process p).barrierActive = true) :
      Step plan state (.wait p) (state.set p (state.process p).wait)
  | leave {p : Fin n} (testing : (state.process p).phase = .testing)
      (active : (state.process p).barrierActive = true)
      (all : ∀ q, (state.process p).barriers ≤ (state.process q).barriers) :
      Step plan state (.leave p) (state.set p (state.process p).leave)

/-- The states that some order of deliveries and completions leads to. -/
def Reachable (plan : Plan n Byte) (permitted : State n Byte → Action n Byte → Prop)
    (state : State n Byte) : Prop :=
  Transition.Reachable (Step plan) permitted State.initial state

/-- The chunks of a message, or of what is left of it. -/
def chunks (maxMsgSize : ℕ) (src : Fin n) (call : ℕ) (data : ℕ → Byte) (entry : Entry n Byte) :
    List (Chunk n Byte) :=
  if 0 < min maxMsgSize entry.count then
    entry.chunk maxMsgSize src call data ::
      chunks maxMsgSize src call data (entry.issend maxMsgSize src call data)
  else []
termination_by entry.count
decreasing_by
  simp only [Entry.issend]
  omega

namespace Plan

variable (plan : Plan n Byte)

/-- All chunks of the message at index `mesg` of a call. -/
def message (call : ℕ) (src : Fin n) (mesg : ℕ) : List (Chunk n Byte) :=
  match (plan.exchange call src).sends[mesg]? with
  | none => []
  | some send =>
      chunks plan.maxMsgSize src call (plan.exchange call src).sendData (Local.entry send mesg)

/-- The messages of a call that are addressed to a process. -/
def addressed (call : ℕ) (dst : Fin n) : List (Fin n × ℕ) :=
  (List.finRange n).flatMap fun src =>
    ((plan.exchange call src).sends.zipIdx.filter fun send => send.1.pid = dst).map fun send =>
      (src, send.2)

/-- The chunks of a call that are addressed to a process. -/
def incoming (call : ℕ) (dst : Fin n) : List (Chunk n Byte) :=
  (plan.addressed call dst).flatMap fun message => plan.message call message.1 message.2

end Plan

end AllToAll

end Talpf
