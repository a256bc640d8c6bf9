import Talpf.PointToPoint.Sending

/-!
# Reservations

`Comm::reserveMsgs` makes room for a number of messages in the vectors of the
communicator, and may throw at each of them.  The number is a `size_t`, but
`Comm::Impl::reserveMsgs`, which checks it, takes an `unsigned`.  A batch of
messages ends when `iwaitall` returns.  MPI may complete sends and deliver
chunks in any way, and an error ends the use of the communicator.
-/

namespace Talpf

namespace PointToPoint

universe u

/-- How many elements the vectors have room for. -/
structure Capacities where
  imsgs : ℕ
  irecvs : ℕ
  largeSends : ℕ
  largeRequests : ℕ

/-- A process with the capacities of its vectors, and what is known of its use. -/
structure Communicator (n : ℕ) (Byte : Type u) where
  process : Local n Byte
  capacity : Capacities
  /-- The sizes for which `reserveMsgs` has returned. -/
  granted : List UInt64
  /-- The calls of `isend` in this batch. -/
  isends : ℕ
  /-- The calls of `irecv` in this batch. -/
  irecvs : ℕ

/-- `std::vector::reserve`, with the capacity that an allocation results in. -/
def reserve (allocated : Option ℕ) (maxNumber capacity : ℕ) : Option ℕ :=
  if maxNumber ≤ capacity then some capacity else allocated.map (max maxNumber)

/-- What a `push_back` has made of a capacity. -/
def Raised (before length after : ℕ) : Prop :=
  if length ≤ before then after = before else length ≤ after

theorem Raised.le {before length after : ℕ} (raised : Raised before length after) :
    before ≤ after := by
  rw [Raised] at raised
  split at raised <;> omega

theorem raised_self {before length : ℕ} (fits : length ≤ before) : Raised before length before := by
  rw [Raised, if_pos fits]

/-- Actions one after the other, until one of them throws. -/
def runAll {α : Type u} : List (α → Option α) → α → α × Bool
  | [], a => (a, true)
  | action :: actions, a =>
      match action a with
      | none => (a, false)
      | some a => runAll actions a

namespace Communicator

variable {n : ℕ} {Byte : Type u}

def initial : Communicator n Byte where
  process :=
    { phase := .posting
      todo := []
      sent := 0
      imsgs := []
      irecvs := []
      emptyRecvs := 0
      largeSends := []
      largeRequests := []
      sendIndices := 0
      ready := []
      nMsgs := 0
      memory := [] }
  capacity := ⟨0, 0, 0, 0⟩
  granted := []
  isends := 0
  irecvs := 0

section Calls

variable (comm : Communicator n Byte)

section Growths

variable (room : Option ℕ) (maxNumber : ℕ)

def reserveImsgs : Option (Communicator n Byte) :=
  (reserve room maxNumber comm.capacity.imsgs).map fun imsgs =>
    { comm with capacity := { comm.capacity with imsgs := imsgs } }

def reserveIrecvs : Option (Communicator n Byte) :=
  (reserve room maxNumber comm.capacity.irecvs).map fun irecvs =>
    { comm with capacity := { comm.capacity with irecvs := irecvs } }

def reserveLargeSends : Option (Communicator n Byte) :=
  (reserve room maxNumber comm.capacity.largeSends).map fun largeSends =>
    { comm with capacity := { comm.capacity with largeSends := largeSends } }

def reserveLargeRequests : Option (Communicator n Byte) :=
  (reserve room maxNumber comm.capacity.largeRequests).map fun largeRequests =>
    { comm with capacity := { comm.capacity with largeRequests := largeRequests } }

def resizeSendIndices : Option (Communicator n Byte) :=
  if comm.process.sendIndices < maxNumber then
    room.map fun _ => { comm with process := { comm.process with sendIndices := maxNumber } }
  else some comm

end Growths

/-- The places where `Comm::Impl::reserveMsgs` may allocate, in their order. -/
def growths (allocated : Fin 5 → Option ℕ) (maxNumber : ℕ) :
    List (Communicator n Byte → Option (Communicator n Byte)) :=
  [fun comm => comm.reserveImsgs (allocated 0) maxNumber,
    fun comm => comm.reserveIrecvs (allocated 1) maxNumber,
    fun comm => comm.reserveLargeSends (allocated 2) maxNumber,
    fun comm => comm.reserveLargeRequests (allocated 3) maxNumber,
    fun comm => comm.resizeSendIndices (allocated 4) maxNumber]

/-- `Comm::Impl::reserveMsgs`, and whether it returns. -/
def implReserveMsgs (allocated : Fin 5 → Option ℕ) (maxNumber : ℕ) : Communicator n Byte × Bool :=
  if maxNumber > maxInt then (comm, false) else runAll (growths allocated maxNumber) comm

/-- `Comm::reserveMsgs`; the size is converted to an `unsigned`. -/
def reserveMsgs (allocated : Fin 5 → Option ℕ) (size : UInt64) : Communicator n Byte :=
  let (after, returned) := comm.implReserveMsgs allocated size.toUInt32.toNat
  if returned then { after with granted := size :: after.granted } else after

/-- A step of the process that changes its vectors. -/
def proceed (process : Local n Byte) (capacity : Capacities) : Communicator n Byte :=
  { comm with process := process, capacity := capacity }

/-- A `push_back` in `isend` has to reallocate. -/
def IsendReallocates (maxMpiMsgSize : ℕ) (send : Isend n Byte) : Prop :=
  if min maxMpiMsgSize send.buf.length < send.buf.length then
    comm.capacity.largeSends ≤ comm.process.largeSends.length ∨
      comm.capacity.largeRequests ≤ comm.process.largeRequests.length
  else comm.capacity.imsgs ≤ comm.process.imsgs.length

/-- The `push_back` in `irecv` has to reallocate. -/
def IrecvReallocates : Prop := comm.capacity.irecvs ≤ comm.process.irecvs.length

end Calls

/-- How the capacities follow the vectors of a process. -/
structure Follows (before : Capacities) (process : Local n Byte) (after : Capacities) : Prop where
  imsgs : Raised before.imsgs process.imsgs.length after.imsgs
  irecvs : Raised before.irecvs process.irecvs.length after.irecvs
  largeSends : Raised before.largeSends process.largeSends.length after.largeSends
  largeRequests : Raised before.largeRequests process.largeRequests.length after.largeRequests

section Steps

variable (maxMpiMsgSize : ℕ) (p : Fin n) (sizes : Set UInt64)

/-- The steps of a process that reserves some sizes only. -/
inductive Step (comm : Communicator n Byte) : Communicator n Byte → Prop
  | reserveMsgs {size : UInt64} {allocated : Fin 5 → Option ℕ}
      (posting : comm.process.phase = .posting) (allowed : size ∈ sizes) :
      Step comm (comm.reserveMsgs allocated size)
  | isend {send : Isend n Byte} {capacity : Capacities} (posting : comm.process.phase = .posting)
      (follows : Follows comm.capacity (comm.process.isend maxMpiMsgSize p send).1 capacity) :
      Step comm
        { comm.proceed (comm.process.isend maxMpiMsgSize p send).1 capacity with
          isends := comm.isends + 1 }
  | irecv {recv : Irecv n Byte} {capacity : Capacities} (posting : comm.process.phase = .posting)
      (follows : Follows comm.capacity (comm.process.irecv recv) capacity) :
      Step comm
        { comm.proceed (comm.process.irecv recv) capacity with irecvs := comm.irecvs + 1 }
  | iwaitall (posting : comm.process.phase = .posting) :
      Step comm (comm.proceed comm.process.iwaitall comm.capacity)
  | testsome {ready : List ℕ} (testing : comm.process.phase = .testing) (distinct : ready.Nodup)
      (active : ∀ j ∈ ready, ∃ chunk, comm.process.largeRequests[j]? = some (some chunk)) :
      Step comm (comm.proceed (comm.process.testsome ready) comm.capacity)
  | resume {j : ℕ} {ready : List ℕ} {capacity : Capacities}
      (continuing : comm.process.phase = .continuing) (next : comm.process.ready = j :: ready)
      (follows : Follows comm.capacity (comm.process.resume maxMpiMsgSize p j ready).1 capacity) :
      Step comm (comm.proceed (comm.process.resume maxMpiMsgSize p j ready).1 capacity)
  | dequeue (continuing : comm.process.phase = .continuing) (handled : comm.process.ready = []) :
      Step comm (comm.proceed comm.process.probe comm.capacity)
  | idle (probing : comm.process.phase = .probing) :
      Step comm (comm.proceed comm.process.head comm.capacity)
  | receive {chunk : Chunk n Byte} (probing : comm.process.phase = .probing)
      (arrived : chunk.dst = p) :
      Step comm (comm.proceed (comm.process.receive maxMpiMsgSize chunk) comm.capacity)
  | waitall (waiting : comm.process.phase = .waiting) :
      Step comm (comm.proceed comm.process.waitall comm.capacity)
  | leave (entered : comm.process.phase = .barrier) :
      Step comm
        { comm.proceed { comm.process with phase := .posting } comm.capacity with
          isends := 0
          irecvs := 0 }
  | throws : Step comm (comm.proceed comm.process.fail comm.capacity)

/-- The communicators that some run leads to. -/
def Run (comm : Communicator n Byte) : Prop :=
  Relation.ReflTransGen (Step maxMpiMsgSize p sizes) initial comm

/-- A size that was granted and is not exceeded by the batch is room enough: `MPI_Testsome` stays
inside of its array, and as long as the batch is smaller, no call has to reallocate. -/
def Roomy (comm : Communicator n Byte) : Prop :=
  ∀ size ∈ comm.granted, comm.isends ≤ size.toNat → comm.irecvs ≤ size.toNat →
    comm.process.largeRequests.length ≤ comm.process.sendIndices ∧
    (comm.process.phase = .posting →
      (comm.isends < size.toNat → ∀ send, ¬comm.IsendReallocates maxMpiMsgSize send) ∧
        (comm.irecvs < size.toNat → ¬comm.IrecvReallocates))

end Steps

/-- The size is converted without a loss, or refused after it. -/
def Convertible (size : UInt64) : Prop := size.toNat < 2 ^ 32 ∨ maxInt < size.toNat % 2 ^ 32

section Reserving

variable {comm : Communicator n Byte} {allocated : Fin 5 → Option ℕ} {size : UInt64}

theorem reserve_eq_some {room : Option ℕ} {maxNumber capacity after : ℕ}
    (reserved : reserve room maxNumber capacity = some after) :
    capacity ≤ after ∧ maxNumber ≤ after := by
  rw [reserve] at reserved
  split at reserved
  next enough =>
    obtain rfl := Option.some.inj reserved
    exact ⟨le_rfl, enough⟩
  next more =>
    rcases Option.map_eq_some_iff.mp reserved with ⟨allocation, _, rfl⟩
    omega

/-- Nothing but the room for messages has changed, and there is not less of it. -/
structure Grown (before after : Communicator n Byte) : Prop where
  process : after.process = { before.process with sendIndices := after.process.sendIndices }
  imsgs : before.capacity.imsgs ≤ after.capacity.imsgs
  irecvs : before.capacity.irecvs ≤ after.capacity.irecvs
  largeSends : before.capacity.largeSends ≤ after.capacity.largeSends
  largeRequests : before.capacity.largeRequests ≤ after.capacity.largeRequests
  sendIndices : before.process.sendIndices ≤ after.process.sendIndices
  uses : after.granted = before.granted ∧ after.isends = before.isends ∧
    after.irecvs = before.irecvs

theorem Grown.refl (comm : Communicator n Byte) : comm.Grown comm :=
  ⟨rfl, le_rfl, le_rfl, le_rfl, le_rfl, le_rfl, rfl, rfl, rfl⟩

theorem Grown.trans {first second third : Communicator n Byte} (grown : first.Grown second)
    (more : second.Grown third) : first.Grown third where
  process := more.process.trans (by rw [grown.process])
  imsgs := grown.imsgs.trans more.imsgs
  irecvs := grown.irecvs.trans more.irecvs
  largeSends := grown.largeSends.trans more.largeSends
  largeRequests := grown.largeRequests.trans more.largeRequests
  sendIndices := grown.sendIndices.trans more.sendIndices
  uses := ⟨more.uses.1.trans grown.uses.1, more.uses.2.1.trans grown.uses.2.1,
    more.uses.2.2.trans grown.uses.2.2⟩

/-- A number of messages has room everywhere. -/
structure Room (comm : Communicator n Byte) (number : ℕ) : Prop where
  imsgs : number ≤ comm.capacity.imsgs
  irecvs : number ≤ comm.capacity.irecvs
  largeSends : number ≤ comm.capacity.largeSends
  largeRequests : number ≤ comm.capacity.largeRequests
  sendIndices : number ≤ comm.process.sendIndices

theorem Room.grown {before after : Communicator n Byte} {number : ℕ} (room : before.Room number)
    (grown : before.Grown after) : after.Room number :=
  ⟨room.imsgs.trans grown.imsgs, room.irecvs.trans grown.irecvs,
    room.largeSends.trans grown.largeSends, room.largeRequests.trans grown.largeRequests,
    room.sendIndices.trans grown.sendIndices⟩

section Growths

variable {room : Option ℕ} {maxNumber : ℕ} {after : Communicator n Byte}

theorem reserveImsgs_grown (grows : comm.reserveImsgs room maxNumber = some after) :
    comm.Grown after ∧ maxNumber ≤ after.capacity.imsgs := by
  rcases Option.map_eq_some_iff.mp grows with ⟨imsgs, reserved, rfl⟩
  rcases reserve_eq_some reserved with ⟨le, enough⟩
  exact ⟨⟨rfl, le, le_rfl, le_rfl, le_rfl, le_rfl, rfl, rfl, rfl⟩, enough⟩

theorem reserveIrecvs_grown (grows : comm.reserveIrecvs room maxNumber = some after) :
    comm.Grown after ∧ maxNumber ≤ after.capacity.irecvs := by
  rcases Option.map_eq_some_iff.mp grows with ⟨irecvs, reserved, rfl⟩
  rcases reserve_eq_some reserved with ⟨le, enough⟩
  exact ⟨⟨rfl, le_rfl, le, le_rfl, le_rfl, le_rfl, rfl, rfl, rfl⟩, enough⟩

theorem reserveLargeSends_grown (grows : comm.reserveLargeSends room maxNumber = some after) :
    comm.Grown after ∧ maxNumber ≤ after.capacity.largeSends := by
  rcases Option.map_eq_some_iff.mp grows with ⟨largeSends, reserved, rfl⟩
  rcases reserve_eq_some reserved with ⟨le, enough⟩
  exact ⟨⟨rfl, le_rfl, le_rfl, le, le_rfl, le_rfl, rfl, rfl, rfl⟩, enough⟩

theorem reserveLargeRequests_grown
    (grows : comm.reserveLargeRequests room maxNumber = some after) :
    comm.Grown after ∧ maxNumber ≤ after.capacity.largeRequests := by
  rcases Option.map_eq_some_iff.mp grows with ⟨largeRequests, reserved, rfl⟩
  rcases reserve_eq_some reserved with ⟨le, enough⟩
  exact ⟨⟨rfl, le_rfl, le_rfl, le_rfl, le, le_rfl, rfl, rfl, rfl⟩, enough⟩

theorem resizeSendIndices_grown (grows : comm.resizeSendIndices room maxNumber = some after) :
    comm.Grown after ∧ maxNumber ≤ after.process.sendIndices := by
  rw [resizeSendIndices] at grows
  split at grows
  next less =>
    rcases Option.map_eq_some_iff.mp grows with ⟨_, _, rfl⟩
    exact ⟨⟨rfl, le_rfl, le_rfl, le_rfl, le_rfl, less.le, rfl, rfl, rfl⟩, le_rfl⟩
  next enough =>
    obtain rfl := Option.some.inj grows
    exact ⟨.refl _, not_lt.mp enough⟩

theorem growths_grown {action : Communicator n Byte → Option (Communicator n Byte)}
    (mem : action ∈ growths allocated maxNumber) (grows : action comm = some after) :
    comm.Grown after := by
  simp only [growths, List.mem_cons, List.not_mem_nil, or_false] at mem
  rcases mem with rfl | rfl | rfl | rfl | rfl
  · exact (reserveImsgs_grown grows).1
  · exact (reserveIrecvs_grown grows).1
  · exact (reserveLargeSends_grown grows).1
  · exact (reserveLargeRequests_grown grows).1
  · exact (resizeSendIndices_grown grows).1

end Growths

theorem runAll_grown {actions : List (Communicator n Byte → Option (Communicator n Byte))}
    (each : ∀ action ∈ actions, ∀ before after, action before = some after → before.Grown after)
    (comm : Communicator n Byte) : comm.Grown (runAll actions comm).1 := by
  induction actions generalizing comm with
  | nil => exact .refl comm
  | cons action actions ih =>
      rw [runAll]
      split
      next => exact .refl comm
      next after grows =>
        have first := each action List.mem_cons_self comm after grows
        exact first.trans (ih (fun later mem => each later (List.mem_cons_of_mem action mem)) after)

theorem implReserveMsgs_grown (allocated : Fin 5 → Option ℕ) (maxNumber : ℕ) :
    comm.Grown (comm.implReserveMsgs allocated maxNumber).1 := by
  rw [implReserveMsgs]
  split
  next => exact .refl comm
  next => exact runAll_grown (fun _ mem _ _ => growths_grown mem) comm

theorem runAll_cons_eq {α : Type u} {action : α → Option α} {actions : List (α → Option α)}
    {a b : α} : runAll (action :: actions) a = (b, true) ↔
      ∃ between, action a = some between ∧ runAll actions between = (b, true) := by
  rw [runAll]
  split
  next throws => simp [throws]
  next between acts => simp [acts]

/-- All growths together make room. -/
theorem implReserveMsgs_room {maxNumber : ℕ} {after : Communicator n Byte}
    (returns : comm.implReserveMsgs allocated maxNumber = (after, true)) :
    after.Room maxNumber := by
  rw [implReserveMsgs] at returns
  split at returns
  next => cases returns
  next =>
    rcases runAll_cons_eq.mp returns with ⟨first, imsgs, rest⟩
    rcases runAll_cons_eq.mp rest with ⟨second, irecvs, rest⟩
    rcases runAll_cons_eq.mp rest with ⟨third, largeSends, rest⟩
    rcases runAll_cons_eq.mp rest with ⟨fourth, largeRequests, rest⟩
    rcases runAll_cons_eq.mp rest with ⟨fifth, sendIndices, rest⟩
    obtain rfl : fifth = after := (Prod.mk.inj rest).1
    rcases reserveImsgs_grown imsgs with ⟨_, imsgsRoom⟩
    rcases reserveIrecvs_grown irecvs with ⟨toSecond, irecvsRoom⟩
    rcases reserveLargeSends_grown largeSends with ⟨toThird, largeSendsRoom⟩
    rcases reserveLargeRequests_grown largeRequests with ⟨toFourth, largeRequestsRoom⟩
    rcases resizeSendIndices_grown sendIndices with ⟨toFifth, sendIndicesRoom⟩
    have fromThird := toFourth.trans toFifth
    have fromSecond := toThird.trans fromThird
    have fromFirst := toSecond.trans fromSecond
    exact ⟨imsgsRoom.trans fromFirst.imsgs, irecvsRoom.trans fromSecond.irecvs,
      largeSendsRoom.trans fromThird.largeSends, largeRequestsRoom.trans toFifth.largeRequests,
      sendIndicesRoom⟩

end Reserving

end Communicator

namespace Local

variable {n : ℕ} {Byte : Type u}

/-- The vectors hold no more than the messages of the batch, and are empty when it ends. -/
structure Orderly (process : Local n Byte) (isends irecvs : ℕ) : Prop where
  lengths : process.largeRequests.length = process.largeSends.length
  large : process.largeSends.length ≤ isends
  posting : process.phase = .posting →
    process.imsgs.length ≤ isends ∧ process.irecvs.length ≤ irecvs
  finished : process.phase = .waiting ∨ process.phase = .barrier →
    process.largeSends = [] ∧ process.irecvs = []
  emptied : process.phase = .barrier → process.imsgs = []

section Orderly

variable {process after : Local n Byte} {isends irecvs maxMpiMsgSize : ℕ} {p : Fin n}

/-- In the loop only the large sends matter. -/
theorem Orderly.loop (orderly : process.Orderly isends irecvs)
    (lengths : after.largeRequests.length = after.largeSends.length)
    (large : after.largeSends.length ≤ process.largeSends.length)
    (looping : after.phase ≠ .posting ∧ after.phase ≠ .waiting ∧ after.phase ≠ .barrier) :
    after.Orderly isends irecvs where
  lengths := lengths
  large := large.trans orderly.large
  posting posts := absurd posts looping.1
  finished ends := absurd ends (not_or.mpr looping.2)
  emptied ends := absurd ends looping.2.2

/-- A process that posts may leave messages in all vectors. -/
theorem orderly_of_posting (posting : after.phase = .posting)
    (lengths : after.largeRequests.length = after.largeSends.length)
    (large : after.largeSends.length ≤ isends)
    (posted : after.imsgs.length ≤ isends ∧ after.irecvs.length ≤ irecvs) :
    after.Orderly isends irecvs where
  lengths := lengths
  large := large
  posting _ := posted
  finished ends := by
    rw [posting] at ends
    exact absurd ends nofun
  emptied ends := by
    rw [posting] at ends
    cases ends

theorem Orderly.fail (orderly : process.Orderly isends irecvs) :
    process.fail.Orderly isends irecvs :=
  orderly.loop orderly.lengths le_rfl ⟨nofun, nofun, nofun⟩

theorem Orderly.head (orderly : process.Orderly isends irecvs) :
    process.head.Orderly isends irecvs := by
  rw [Local.head]
  split
  next => exact orderly.loop orderly.lengths le_rfl ⟨nofun, nofun, nofun⟩
  next done =>
    have empty : process.largeSends = [] := not_not.mp (not_or.mp done).2
    exact ⟨orderly.lengths, orderly.large, nofun, fun _ => ⟨empty, rfl⟩, nofun⟩

theorem Orderly.isend (orderly : process.Orderly isends irecvs) (posting : process.phase = .posting)
    (send : Isend n Byte) :
    (process.isend maxMpiMsgSize p send).1.Orderly (isends + 1) irecvs := by
  rcases orderly.posting posting with ⟨imsgs, received⟩
  unfold Local.isend
  dsimp only
  split
  next larger =>
    refine orderly_of_posting posting ?_ ?_ ⟨imsgs.trans (Nat.le_succ _), received⟩
    · dsimp only
      rw [List.length_append, List.length_append, orderly.lengths]
      rfl
    · dsimp only
      rw [List.length_append, List.length_singleton]
      exact Nat.succ_le_succ orderly.large
  next single =>
    refine orderly_of_posting posting orderly.lengths (orderly.large.trans (Nat.le_succ _))
      ⟨?_, received⟩
    dsimp only
    rw [List.length_append, List.length_singleton]
    exact Nat.succ_le_succ imsgs

theorem Orderly.irecv (orderly : process.Orderly isends irecvs) (posting : process.phase = .posting)
    (recv : Irecv n Byte) : (process.irecv recv).Orderly isends (irecvs + 1) := by
  rcases orderly.posting posting with ⟨imsgs, received⟩
  rw [Local.irecv]
  split
  next tagged =>
    refine orderly_of_posting posting orderly.lengths orderly.large ⟨imsgs, ?_⟩
    dsimp only
    rw [List.length_append, List.length_singleton]
    exact Nat.succ_le_succ received
  next =>
    have more : process.Orderly isends (irecvs + 1) :=
      orderly_of_posting posting orderly.lengths orderly.large
        ⟨imsgs, received.trans (Nat.le_succ _)⟩
    exact more.fail

theorem Orderly.iwaitall (orderly : process.Orderly isends irecvs) :
    process.iwaitall.Orderly isends irecvs := by
  have counted : ({ process with nMsgs := process.irecvs.length - process.emptyRecvs } :
      Local n Byte).Orderly isends irecvs :=
    ⟨orderly.lengths, orderly.large, orderly.posting, orderly.finished, orderly.emptied⟩
  exact counted.head

theorem Orderly.testsome (orderly : process.Orderly isends irecvs) (ready : List ℕ) :
    (process.testsome ready).Orderly isends irecvs := by
  rw [Local.testsome]
  split
  next =>
    refine orderly.loop ?_ le_rfl ⟨nofun, nofun, nofun⟩
    rw [List.length_mapIdx]
    exact orderly.lengths
  next => exact orderly.fail

theorem Orderly.resume (orderly : process.Orderly isends irecvs)
    (continuing : process.phase = .continuing) (j : ℕ) (ready : List ℕ) :
    (process.resume maxMpiMsgSize p j ready).1.Orderly isends irecvs := by
  have looping : process.phase ≠ .posting ∧ process.phase ≠ .waiting ∧
      process.phase ≠ .barrier := by
    rw [continuing]
    exact ⟨nofun, nofun, nofun⟩
  rw [Local.resume]
  split
  next => exact orderly.fail
  next send found =>
    split
    next => exact orderly.fail
    next =>
      dsimp only
      split
      next last =>
        refine orderly.loop ?_ (List.length_set ..).le looping
        rw [List.length_set]
        exact orderly.lengths
      next more =>
        refine orderly.loop ?_ (List.length_set ..).le looping
        rw [List.length_set, List.length_set]
        exact orderly.lengths

theorem dequeue_lengths (i : ℕ) (process : Local n Byte)
    (lengths : process.largeRequests.length = process.largeSends.length) :
    (dequeue i process).largeRequests.length = (dequeue i process).largeSends.length ∧
      (dequeue i process).largeSends.length ≤ process.largeSends.length := by
  induction i generalizing process with
  | zero => exact ⟨lengths, le_rfl⟩
  | succ i ih =>
      rw [dequeue]
      split
      next null =>
        rcases ih { process with
            largeRequests := swapPop i process.largeRequests
            largeSends := swapPop i process.largeSends }
          (by simp only [length_swapPop, lengths]) with ⟨same, le⟩
        refine ⟨same, le.trans ?_⟩
        dsimp only
        rw [length_swapPop]
        exact Nat.sub_le _ _
      next => exact ih process lengths

theorem Orderly.probe (orderly : process.Orderly isends irecvs) :
    process.probe.Orderly isends irecvs := by
  rcases dequeue_lengths process.largeRequests.length process orderly.lengths with ⟨lengths, large⟩
  exact orderly.loop lengths large ⟨nofun, nofun, nofun⟩

theorem Orderly.receive (orderly : process.Orderly isends irecvs)
    (probing : process.phase = .probing) (chunk : Chunk n Byte) :
    (process.receive maxMpiMsgSize chunk).Orderly isends irecvs := by
  have looping : process.phase ≠ .posting ∧ process.phase ≠ .waiting ∧
      process.phase ≠ .barrier := by
    rw [probing]
    exact ⟨nofun, nofun, nofun⟩
  rw [Local.receive]
  split
  next => exact orderly.fail
  next buf size found =>
    split
    next => exact orderly.fail
    next =>
      dsimp only
      split
      next more =>
        apply Orderly.head
        exact orderly.loop orderly.lengths le_rfl looping
      next last =>
        apply Orderly.head
        exact orderly.loop orderly.lengths le_rfl looping

theorem Orderly.waitall (orderly : process.Orderly isends irecvs)
    (waiting : process.phase = .waiting) : process.waitall.Orderly isends irecvs :=
  ⟨orderly.lengths, orderly.large, nofun, fun _ => orderly.finished (.inl waiting), fun _ => rfl⟩

/-- A new batch begins with empty vectors. -/
theorem Orderly.leave (orderly : process.Orderly isends irecvs)
    (entered : process.phase = .barrier) :
    ({ process with phase := .posting } : Local n Byte).Orderly 0 0 := by
  rcases orderly.finished (.inr entered) with ⟨large, received⟩
  have imsgs := orderly.emptied entered
  exact orderly_of_posting rfl orderly.lengths (congrArg List.length large).le
    ⟨(congrArg List.length imsgs).le, (congrArg List.length received).le⟩

end Orderly

section SendIndices

variable {process : Local n Byte}

/-- The array of `MPI_Testsome` only changes in `reserveMsgs`. -/
theorem isend_sendIndices (maxMpiMsgSize : ℕ) (p : Fin n) (send : Isend n Byte) :
    (process.isend maxMpiMsgSize p send).1.sendIndices = process.sendIndices := by
  unfold isend
  dsimp only
  split <;> rfl

theorem irecv_sendIndices (recv : Irecv n Byte) :
    (process.irecv recv).sendIndices = process.sendIndices := by
  unfold irecv
  split <;> rfl

theorem head_sendIndices : process.head.sendIndices = process.sendIndices := by
  unfold head
  split <;> rfl

theorem testsome_sendIndices (ready : List ℕ) :
    (process.testsome ready).sendIndices = process.sendIndices := by
  unfold testsome
  split <;> rfl

theorem resume_sendIndices (maxMpiMsgSize : ℕ) (p : Fin n) (j : ℕ) (ready : List ℕ) :
    (process.resume maxMpiMsgSize p j ready).1.sendIndices = process.sendIndices := by
  unfold resume
  split
  next => rfl
  next =>
    split
    next => rfl
    next =>
      dsimp only
      split <;> rfl

theorem probe_sendIndices : process.probe.sendIndices = process.sendIndices := by
  rw [probe, dequeue_frame]

theorem receive_sendIndices (maxMpiMsgSize : ℕ) (chunk : Chunk n Byte) :
    (process.receive maxMpiMsgSize chunk).sendIndices = process.sendIndices := by
  unfold receive
  split
  next => rfl
  next =>
    split
    next => rfl
    next =>
      dsimp only
      split <;> exact head_sendIndices

end SendIndices

end Local

namespace Communicator

variable {n : ℕ} {Byte : Type u}

/-- All sizes that were granted have room, and the vectors hold no more than the batch. -/
structure Reserved (comm : Communicator n Byte) : Prop where
  orderly : comm.process.Orderly comm.isends comm.irecvs
  room : ∀ size ∈ comm.granted, comm.Room size.toNat

section Runs

variable {comm after : Communicator n Byte} {maxMpiMsgSize : ℕ} {p : Fin n} {sizes : Set UInt64}

theorem Room.follow {number : ℕ} (room : comm.Room number)
    (follows : Follows comm.capacity after.process after.capacity)
    (same : after.process.sendIndices = comm.process.sendIndices) : after.Room number :=
  ⟨room.imsgs.trans follows.imsgs.le, room.irecvs.trans follows.irecvs.le,
    room.largeSends.trans follows.largeSends.le, room.largeRequests.trans follows.largeRequests.le,
    room.sendIndices.trans same.ge⟩

theorem Room.keep {number : ℕ} (room : comm.Room number)
    (capacity : after.capacity = comm.capacity)
    (same : after.process.sendIndices = comm.process.sendIndices) : after.Room number := by
  rcases room with ⟨imsgs, irecvs, largeSends, largeRequests, sendIndices⟩
  rw [← capacity] at imsgs irecvs largeSends largeRequests
  exact ⟨imsgs, irecvs, largeSends, largeRequests, sendIndices.trans same.ge⟩

theorem Reserved.keep (reserved : comm.Reserved) {process : Local n Byte}
    (orderly : process.Orderly comm.isends comm.irecvs)
    (same : process.sendIndices = comm.process.sendIndices) :
    (comm.proceed process comm.capacity).Reserved :=
  ⟨orderly, fun size granted => (reserved.room size granted).keep rfl same⟩

theorem Reserved.reserveMsgs (reserved : comm.Reserved) (allocated : Fin 5 → Option ℕ)
    {size : UInt64} (convertible : Convertible size) :
    (comm.reserveMsgs allocated size).Reserved := by
  rcases reserved with ⟨orderly, room⟩
  rcases result : comm.implReserveMsgs allocated size.toUInt32.toNat with ⟨after, returned⟩
  have grown : comm.Grown after := by
    have grown := @implReserveMsgs_grown _ _ comm allocated size.toUInt32.toNat
    rwa [result] at grown
  have orderly : after.process.Orderly after.isends after.irecvs := by
    rw [grown.process, grown.uses.2.1, grown.uses.2.2]
    exact ⟨orderly.lengths, orderly.large, orderly.posting, orderly.finished, orderly.emptied⟩
  have room : ∀ earlier ∈ after.granted, after.Room earlier.toNat := fun earlier granted =>
    (room earlier (grown.uses.1 ▸ granted)).grown grown
  rw [Communicator.reserveMsgs, result]
  cases returned with
  | false => exact ⟨orderly, room⟩
  | true =>
      have isSize : size.toUInt32.toNat = size.toNat % 2 ^ 32 := UInt64.toNat_toUInt32 size
      have same : size.toUInt32.toNat = size.toNat := by
        rcases convertible with small | large
        · rw [isSize, Nat.mod_eq_of_lt small]
        · rw [implReserveMsgs, isSize, if_pos large] at result
          cases result
      refine ⟨orderly, fun earlier granted => ?_⟩
      rcases List.mem_cons.mp granted with rfl | before
      · exact (same ▸ implReserveMsgs_room result).keep rfl rfl
      · exact (room earlier before).keep rfl rfl

theorem Reserved.step (reserved : comm.Reserved) (convertible : ∀ size ∈ sizes, Convertible size)
    (step : Step maxMpiMsgSize p sizes comm after) : after.Reserved := by
  have orderly := reserved.orderly
  cases step with
  | reserveMsgs posting allowed => exact reserved.reserveMsgs _ (convertible _ allowed)
  | isend posting follows =>
      exact ⟨orderly.isend posting _, fun size granted =>
        (reserved.room size granted).follow follows (Local.isend_sendIndices ..)⟩
  | irecv posting follows =>
      exact ⟨orderly.irecv posting _, fun size granted =>
        (reserved.room size granted).follow follows (Local.irecv_sendIndices _)⟩
  | iwaitall posting => exact reserved.keep orderly.iwaitall Local.head_sendIndices
  | testsome testing distinct active =>
      exact reserved.keep (orderly.testsome _) (Local.testsome_sendIndices _)
  | resume continuing next follows =>
      exact ⟨orderly.resume continuing _ _, fun size granted =>
        (reserved.room size granted).follow follows (Local.resume_sendIndices ..)⟩
  | dequeue continuing handled => exact reserved.keep orderly.probe Local.probe_sendIndices
  | idle probing => exact reserved.keep orderly.head Local.head_sendIndices
  | receive probing arrived =>
      exact reserved.keep (orderly.receive probing _) (Local.receive_sendIndices ..)
  | waitall waiting => exact reserved.keep (orderly.waitall waiting) rfl
  | leave entered =>
      exact ⟨orderly.leave entered, fun size granted => (reserved.room size granted).keep rfl rfl⟩
  | throws => exact reserved.keep orderly.fail rfl

theorem Reserved.roomy (reserved : comm.Reserved) : comm.Roomy maxMpiMsgSize := by
  intro size granted sends receives
  have room := reserved.room size granted
  have orderly := reserved.orderly
  refine ⟨(orderly.lengths.le.trans orderly.large).trans (sends.trans room.sendIndices), ?_⟩
  intro posting
  rcases orderly.posting posting with ⟨imsgs, received⟩
  constructor
  · intro less send reallocates
    rw [IsendReallocates] at reallocates
    have lengths := orderly.lengths
    have large := orderly.large
    have imsgsRoom := room.imsgs
    have largeSendsRoom := room.largeSends
    have largeRequestsRoom := room.largeRequests
    split at reallocates <;> omega
  · intro less reallocates
    rw [IrecvReallocates] at reallocates
    have irecvsRoom := room.irecvs
    omega

theorem Run.reserved (convertible : ∀ size ∈ sizes, Convertible size)
    (run : Run maxMpiMsgSize p sizes comm) : comm.Reserved := by
  induction run with
  | refl => exact ⟨⟨rfl, le_rfl, fun _ => ⟨le_rfl, le_rfl⟩, nofun, nofun⟩, nofun⟩
  | tail _ step ih => exact ih.step convertible step

/-- After a size was granted as another number, there were some messages without a byte. -/
def filled (size : UInt64) (number k : ℕ) : Communicator n Byte where
  process :=
    { phase := .posting
      todo := []
      sent := k
      imsgs := List.replicate k none
      irecvs := []
      emptyRecvs := 0
      largeSends := []
      largeRequests := []
      sendIndices := number
      ready := []
      nMsgs := 0
      memory := [] }
  capacity := ⟨number, number, number, number⟩
  granted := [size]
  isends := k
  irecvs := 0

theorem reserve_exact (maxNumber : ℕ) : reserve (some maxNumber) maxNumber 0 = some maxNumber := by
  rw [reserve]
  split
  next none =>
    obtain rfl := Nat.le_zero.mp none
    rfl
  next => exact congrArg some (max_self maxNumber)

theorem reserveMsgs_initial {size : UInt64} {number : ℕ} (isNumber : size.toNat % 2 ^ 32 = number)
    (fits : number ≤ maxInt) :
    (initial : Communicator n Byte).reserveMsgs (fun _ => some number) size =
      filled size number 0 := by
  have isSize : size.toUInt32.toNat = number := (UInt64.toNat_toUInt32 size).trans isNumber
  have indices : ∀ comm : Communicator n Byte, comm.process.sendIndices = 0 →
      comm.resizeSendIndices (some number) number =
        some { comm with process := { comm.process with sendIndices := number } } := by
    intro comm isZero
    rw [resizeSendIndices]
    split
    next => rfl
    next none =>
      have isNumber : number = comm.process.sendIndices := by omega
      rw [isNumber]
  rw [reserveMsgs, implReserveMsgs, isSize, if_neg (not_lt.mpr fits)]
  simp only [growths, runAll, initial, reserveImsgs, reserveIrecvs, reserveLargeSends,
    reserveLargeRequests, reserve_exact, Option.map_some, indices]
  rfl

theorem filled_run {size : UInt64} {number k : ℕ} (isNumber : size.toNat % 2 ^ 32 = number)
    (fits : number ≤ maxInt) (allowed : size ∈ sizes) (room : k ≤ number) :
    Run maxMpiMsgSize p sizes (filled size number k : Communicator n Byte) := by
  induction k with
  | zero =>
      have step := @Step.reserveMsgs n Byte maxMpiMsgSize p sizes initial size
        (fun _ => some number) rfl allowed
      rw [reserveMsgs_initial isNumber fits] at step
      exact .single step
  | succ k ih =>
      have sends : (filled size number k : Communicator n Byte).process.isend maxMpiMsgSize p
          ⟨[], p, 0⟩ = ((filled size number (k + 1) : Communicator n Byte).process, []) := by
        simp [Local.isend, filled, List.replicate_succ']
      have follows : Follows (filled size number k : Communicator n Byte).capacity
          (filled size number (k + 1) : Communicator n Byte).process
          (filled size number (k + 1) : Communicator n Byte).capacity :=
        ⟨raised_self ((List.length_replicate).trans_le room), raised_self (Nat.zero_le _),
          raised_self (Nat.zero_le _), raised_self (Nat.zero_le _)⟩
      have step := @Step.isend n Byte maxMpiMsgSize p sizes (filled size number k) ⟨[], p, 0⟩
        (filled size number (k + 1) : Communicator n Byte).capacity rfl
        (by rw [sends]; exact follows)
      rw [sends] at step
      exact .tail (ih (Nat.le_of_succ_le room)) step

/-- A communicator that is filled up although more was granted has to reallocate. -/
theorem filled_not_roomy {size : UInt64} {number : ℕ} (p : Fin n) (less : number < size.toNat) :
    ¬(filled size number number : Communicator n Byte).Roomy maxMpiMsgSize := by
  intro roomy
  have posting := (roomy size List.mem_cons_self less.le (Nat.zero_le _)).2 rfl
  apply posting.1 less ⟨[], p, 0⟩
  rw [IsendReallocates, if_neg (by simp)]
  exact (List.length_replicate).ge

/-- The reservations of a communicator hold in all runs if and only if all sizes it reserves are
converted without a loss or refused. -/
theorem reservations_hold_iff (maxMpiMsgSize : ℕ) (p : Fin n) (sizes : Set UInt64) :
    (∀ comm : Communicator n Byte, Run maxMpiMsgSize p sizes comm → comm.Roomy maxMpiMsgSize) ↔
      ∀ size ∈ sizes, Convertible size := by
  constructor
  · intro holds size allowed
    by_contra lossy
    rcases not_or.mp lossy with ⟨large, fits⟩
    have less : size.toNat % 2 ^ 32 < size.toNat := by omega
    exact filled_not_roomy p less
      (holds _ (filled_run rfl (not_lt.mp fits) allowed le_rfl))
  · intro convertible comm run
    exact (run.reserved convertible).roomy

end Runs

/-- A large message has been posted after `2 ^ 32` messages were granted. -/
def oneLarge : Communicator 1 ℕ :=
  { (filled 0x100000000 0 0).proceed
      ((filled 0x100000000 0 0 : Communicator 1 ℕ).process.isend 1 ⟨0, Nat.zero_lt_one⟩
        ⟨[7, 8], ⟨0, Nat.zero_lt_one⟩, 0⟩).1
      ⟨0, 0, 1, 1⟩ with
    isends := 1 }

/-- The message already exceeds the array of `MPI_Testsome`, which is empty. -/
theorem reservations_not_hold :
    ∃ comm : Communicator 1 ℕ, Run 1 0 {0x100000000} comm ∧ comm.process.phase = .testing ∧
      comm.process.largeRequests.length = 1 ∧ comm.process.sendIndices = 0 ∧
      ¬comm.Roomy 1 := by
  have granted : Run 1 0 {0x100000000} (filled 0x100000000 0 0 : Communicator 1 ℕ) :=
    filled_run (by decide) (Nat.zero_le _) rfl le_rfl
  have sends : Step 1 0 {0x100000000} (filled 0x100000000 0 0) oneLarge :=
    .isend rfl ⟨rfl, rfl, Nat.le_refl 1, Nat.le_refl 1⟩
  have waits : Step 1 0 {0x100000000} oneLarge
      (oneLarge.proceed oneLarge.process.iwaitall oneLarge.capacity) := .iwaitall rfl
  refine ⟨_, .tail (.tail granted sends) waits, rfl, rfl, rfl, ?_⟩
  intro roomy
  have room := (roomy 0x100000000 List.mem_cons_self (by decide) (by decide)).1
  exact absurd room (by decide)

end Communicator

end PointToPoint

end Talpf
