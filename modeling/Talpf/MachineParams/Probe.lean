import Mathlib.Algebra.Group.Nat.Defs
import Mathlib.Algebra.GroupWithZero.Nat
import Mathlib.Data.List.FinRange

/-!
# The machine probe

`findMachineParams` first sends more and more messages, for as long as all
processes agree that there is memory and time, and then measures with the number
of messages that it has come to.  All processes run it together.  `Setting` is
what they start with and what their requests for memory are answered, and
`Timing` is how the clock and the synchronisations turn out.
-/

namespace Talpf

namespace Probe

/-- A value of type `size_t` -/
def wrap (value : ℕ) : ℕ := value % 2 ^ 64

/-- `std::vector<char>::max_size` -/
def maxSize : ℕ := 2 ^ 63 - 1

def minRange : ℕ := 3

def maxRange : ℕ := 60

def preferredSamples : ℕ := 100

inductive Answer where
  | success
  | outOfMemory
  | failed
deriving DecidableEq

/-- The values of `ErrorCondition` -/
inductive ErrorCondition where
  | proceed
  | stop
  | error
deriving DecidableEq

/-- The loop condition of a process that has time left -/
def Answer.condition : Answer → ErrorCondition
  | .outOfMemory => .stop
  | .success => .proceed
  | .failed => .error

/-- What `findMachineParams` returns. -/
inductive Exit where
  | success
  | timeout
  | fatal
deriving DecidableEq

/-- A message from the read buffer of one process to the write buffer of another -/
structure Message (n : ℕ) where
  reader : Fin n
  readOffset : ℕ
  writer : Fin n
  writeOffset : ℕ
  size : ℕ

variable {n : ℕ}

/-- The messages that a process posts. -/
def sendMsgs (pid : Fin n) (nMsgs mode blockSize : ℕ) : List (Message n) :=
  (List.range nMsgs).flatMap fun m => (List.finRange n).map fun (p : Fin n) =>
    let i := wrap (m * n + p.val)
    let j := wrap (m * n + pid.val)
    if mode = 0 ∨ (mode = 1 ∧ m % 2 = 0) then
      ⟨pid, wrap (i * blockSize), p, wrap (j * blockSize), blockSize⟩
    else ⟨p, wrap (i * blockSize), pid, wrap (j * blockSize), blockSize⟩

/-- What the processes post in one superstep, with their queues and buffers at that time. -/
structure Superstep (n : ℕ) where
  queue : Fin n → ℕ
  readSlot : Option (Fin n → ℕ)
  writeSlot : Option (Fin n → ℕ)
  /-- Messages between the tables of the probe -/
  puts : ℕ
  messages : Fin n → List (Message n)

namespace Superstep

/-- A message stays within the buffers that are registered. -/
def Holds (superstep : Superstep n) (message : Message n) : Prop :=
  (∃ sizes, superstep.readSlot = some sizes ∧
    message.readOffset + message.size ≤ sizes message.reader) ∧
  ∃ sizes, superstep.writeSlot = some sizes ∧
    message.writeOffset + message.size ≤ sizes message.writer

structure Safe (superstep : Superstep n) : Prop where
  posted : ∀ pid, superstep.puts + (superstep.messages pid).length ≤ superstep.queue pid
  held : ∀ pid, ∀ message ∈ superstep.messages pid, superstep.Holds message

end Superstep

/-- The state of all processes. -/
structure State (n : ℕ) where
  readBuffer : Fin n → ℕ
  writeBuffer : Fin n → ℕ
  /-- The last size of the message queue that was requested successfully -/
  queue : Fin n → ℕ
  allStatusSlot : Bool
  allTimingsSlot : Bool
  /-- The sizes of the buffers as they are registered -/
  readSlot : Option (Fin n → ℕ)
  writeSlot : Option (Fin n → ℕ)
  supersteps : List (Superstep n)

/-- A point of the run. -/
inductive Moment where
  | exploring (range : ℕ)
  /-- Sample `i` with the `j`-th number of messages -/
  | measuring (j i : ℕ)

/-- The synchronisations around `sendMsgs` and those of `allgather` -/
inductive Sync where
  | beforeMsgs
  | afterMsgs
  | guard
  | broadcast
  | protect

structure Timing (n : ℕ) where
  /-- Everything up to the first registration succeeds. -/
  prepared : Bool
  hardMissed : Moment → Fin n → Bool
  softMissed : Moment → Fin n → Bool
  syncs : Moment → Sync → Bool
  /-- The last sync succeeds. -/
  finished : Bool

structure Setting (n : ℕ) where
  blockSize : ℕ
  readBuffer : Fin n → ℕ
  writeBuffer : Fin n → ℕ
  queue : Fin n → ℕ
  queueRequest : ℕ → Fin n → Answer
  /-- The allocation for a buffer that has to grow succeeds. -/
  readAlloc : ℕ → Fin n → Bool
  writeAlloc : ℕ → Fin n → Bool
  nprocs_pos : 0 < n
  nprocs_lt : n < 2 ^ 32
  blockSize_lt : blockSize < 2 ^ 64
  readBuffer_le : ∀ p, readBuffer p ≤ maxSize
  writeBuffer_le : ∀ p, writeBuffer p ≤ maxSize

namespace State

def post (state : State n) (puts : ℕ) (messages : Fin n → List (Message n)) : State n :=
  { state with
    supersteps := state.supersteps ++
      [⟨state.queue, state.readSlot, state.writeSlot, puts, messages⟩] }

def send (state : State n) (nMsgs blockSize : ℕ) : State n :=
  state.post 0 fun pid => sendMsgs pid nMsgs 0 blockSize

def registerTables (state : State n) : State n :=
  { state with allStatusSlot := true, allTimingsSlot := true }

def deregisterTables (state : State n) : State n :=
  { state with allStatusSlot := false, allTimingsSlot := false }

def registerBuffers (state : State n) : State n :=
  { state with readSlot := some state.readBuffer, writeSlot := some state.writeBuffer }

def deregisterBuffers (state : State n) : State n :=
  { state with readSlot := none, writeSlot := none }

end State

/-- The loop at the end of `allgather` -/
def summarize : List ErrorCondition → ErrorCondition → ErrorCondition
  | [], result => result
  | condition :: conditions, result =>
      if result ≠ .error ∧ condition = .stop then summarize conditions .stop
      else if condition = .error then .error
      else summarize conditions result

def allgather (timing : Timing n) (moment : Moment) (allC : Fin n → ErrorCondition)
    (state : State n) : State n × ErrorCondition :=
  if timing.syncs moment .guard then
    let state := state.post (n - 1) fun _ => []
    if timing.syncs moment .broadcast then
      if timing.syncs moment .protect then (state, summarize (List.ofFn allC) .proceed)
      else (state, .error)
    else (state, .error)
  else (state, .error)

/-- Resize a vector.  A vector that does not grow needs no memory. -/
def resize (alloc : Bool) (size wanted : ℕ) : Option ℕ :=
  if wanted ≤ size then some wanted
  else if wanted ≤ maxSize ∧ alloc = true then some wanted
  else none

/-- Resize both vectors, up to the first that cannot be resized. -/
def resizeBuffers (readAlloc writeAlloc : Bool) (read write wanted : ℕ) : ℕ × ℕ × Bool :=
  match resize readAlloc read wanted with
  | none => (read, write, false)
  | some read =>
      match resize writeAlloc write wanted with
      | none => (read, write, false)
      | some write => (read, write, true)

namespace Setting

variable (setting : Setting n)

/-- The size of the message queue that is requested. -/
def messages (_ : Setting n) (range : ℕ) : ℕ := wrap (n * (1 + 2 ^ range))

/-- The size of the buffers that is requested, with that of a `double`. -/
def totalSize (range : ℕ) : ℕ := wrap (wrap (wrap (setting.blockSize * n) * 2 ^ range) + 8)

def start : State n where
  readBuffer := setting.readBuffer
  writeBuffer := setting.writeBuffer
  queue := setting.queue
  allStatusSlot := false
  allTimingsSlot := false
  readSlot := none
  writeSlot := none
  supersteps := []

/-- How the buffers of a process are resized. -/
def resized (range : ℕ) (state : State n) (p : Fin n) : ℕ × ℕ × Bool :=
  resizeBuffers (setting.readAlloc range p) (setting.writeAlloc range p) (state.readBuffer p)
    (state.writeBuffer p) (setting.totalSize range)

/-- The requests of one iteration -/
def grow (range : ℕ) (state : State n) : State n :=
  { state with
    queue := fun p =>
      if setting.queueRequest range p = .success then setting.messages range else state.queue p
    readBuffer := fun p => (setting.resized range state p).1
    writeBuffer := fun p => (setting.resized range state p).2.1 }

/-- The return code that is left by the requests. -/
def answer (range : ℕ) (state : State n) (p : Fin n) : Answer :=
  if (setting.resized range state p).2.2 then setting.queueRequest range p else .outOfMemory

/-- The loop condition of a process -/
def status (timing : Timing n) (range : ℕ) (state : State n) (p : Fin n) : ErrorCondition :=
  if timing.hardMissed (.exploring range) p then .error
  else if range > minRange ∧ timing.softMissed (.exploring range) p then .stop
  else (setting.answer range state p).condition

/-- Explore the range of h-relations, for as many iterations as are left. -/
def explore (timing : Timing n) : ℕ → ℕ → State n → State n × Except Exit ℕ
  | range, 0, state => (state, .ok range)
  | range, left + 1, state =>
      let gathered := allgather timing (.exploring range) (setting.status timing range state)
        (setting.grow range state)
      match gathered.2 with
      | .stop => (gathered.1, .ok range)
      | .error => (gathered.1.deregisterTables, .error .timeout)
      | .proceed =>
          let registered := gathered.1.registerBuffers
          if timing.syncs (.exploring range) .beforeMsgs then
            let sent := registered.send (2 ^ range) setting.blockSize
            if timing.syncs (.exploring range) .afterMsgs then
              explore timing (range + 1) left sent.deregisterBuffers
            else (sent, .error .fatal)
          else (registered, .error .fatal)

/-- Whether a process has time for another sample. -/
def sampleStatus (timing : Timing n) (j i : ℕ) (p : Fin n) : ErrorCondition :=
  if timing.hardMissed (.measuring j i) p then .error
  else if (j ≥ 3 ∧ i > 10) ∧ timing.softMissed (.measuring j i) p then .stop
  else .proceed

/-- Measure with a number of messages, for as many samples as are left. -/
def samples (timing : Timing n) (j nMsgs : ℕ) : ℕ → ℕ → State n → State n × Except Exit Unit
  | _, 0, state => (state, .ok ())
  | i, left + 1, state =>
      if timing.syncs (.measuring j i) .beforeMsgs then
        let sent := state.send nMsgs setting.blockSize
        if timing.syncs (.measuring j i) .afterMsgs then
          let gathered := allgather timing (.measuring j i) (sampleStatus timing j i) sent
          match gathered.2 with
          | .error => (gathered.1.deregisterBuffers.deregisterTables, .error .timeout)
          | .stop => (gathered.1, .ok ())
          | .proceed => samples timing j nMsgs (i + 1) left gathered.1
        else (sent, .error .fatal)
      else (state, .error .fatal)

/-- Measure with each number of messages. -/
def measure (timing : Timing n) : ℕ → List ℕ → State n → State n × Except Exit Unit
  | _, [], state => (state, .ok ())
  | j, nMsgs :: sizeHRels, state =>
      match setting.samples timing j nMsgs 0 preferredSamples state with
      | (state, .error exit) => (state, .error exit)
      | (state, .ok ()) => measure timing (j + 1) sizeHRels state

/-- Communicate all measurements over all processes. -/
def report (timing : Timing n) (state : State n) : State n × Exit :=
  let posted := state.deregisterBuffers.post (n - 1) fun _ => []
  if timing.finished then (posted.deregisterTables, .success) else (posted, .fatal)

/-- The numbers of messages of the measurements -/
def sizeHRels (range : ℕ) : List ℕ := [0, 1, 2, max 4 (2 ^ range)]

def findMachineParams (timing : Timing n) : State n × Exit :=
  if timing.prepared then
    match setting.explore timing minRange (maxRange - minRange) setting.start.registerTables with
    | (state, .error exit) => (state, exit)
    | (state, .ok range) =>
        match setting.measure timing 0 (sizeHRels (range - 1)) state.registerBuffers with
        | (state, .error exit) => (state, exit)
        | (state, .ok ()) => report timing state
  else (setting.start, .fatal)

end Setting

/-- All messages stay within their buffers and queues, and all slots are deregistered unless an
error is fatal. -/
structure Stays (outcome : State n × Exit) : Prop where
  safe : ∀ superstep ∈ outcome.1.supersteps, superstep.Safe
  deregistered : outcome.2 ≠ .fatal →
    outcome.1.allStatusSlot = false ∧ outcome.1.allTimingsSlot = false ∧
      outcome.1.readSlot = none ∧ outcome.1.writeSlot = none

end Probe

end Talpf
