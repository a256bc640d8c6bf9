import Talpf.Library.Transition
import Talpf.IBVerbs.Frames
import Talpf.MessageQueue.SortedQueue

/-!
# Resizes that fail

A resize that runs out of memory should leave everything as it was.  It does so
if the very first thing that it asks for is refused.  Later on it has grown a
register, requested a reconnection or replaced queue pairs already, and none of
this is taken back.
-/

namespace Talpf

open Spmd

namespace IBVerbs

variable {n : ℕ}

/-- The device creates the queue pairs to all processes. -/
def QpsGranted (verbs : IBVerbs n) : Prop :=
  ∀ peer : Fin n, verbs.device.CreatesQp (verbs.device.createQpCalls + peer)

/-- The first attempt to create a queue pair that fails drops nothing, because its shared pointer
cannot be made or because nothing is staged for its peer.  Each queue pair that is created before
has the number of the one that it replaces. -/
def FailsInPlace (verbs : IBVerbs n) : Prop :=
  ∃ i : Fin n, ¬verbs.device.CreatesQp (verbs.device.createQpCalls + i) ∧
    (verbs.device.controlBlock (verbs.device.createQpCalls + i) = true →
      verbs.stagedQps i = none) ∧
    ∀ j < i, verbs.device.CreatesQp (verbs.device.createQpCalls + j) ∧
      verbs.stagedQps j =
        (verbs.device.createQp (verbs.device.createQpCalls + j)).map (⟨·, none⟩)

theorem stagePeers_granted_iff (peers : List (Fin n)) (verbs : IBVerbs n) :
    (stagePeers peers verbs).2 = none ↔ ∀ i < peers.length,
      verbs.device.CreatesQp (verbs.device.createQpCalls + i) := by
  induction peers generalizing verbs with
  | nil => simp [stagePeers]
  | cons peer peers ih =>
      have staging := verbs.stageQp_staging peer
      have calls := verbs.createQpCalls_stageQp peer
      have created := (verbs.stageQp_cases peer).2
      simp only [stagePeers]
      generalize verbs.stageQp peer = outcome at staging calls created ⊢
      rcases outcome with ⟨staged, thrown⟩
      have device : staged.device =
          { verbs.device with createQpCalls := verbs.device.createQpCalls + 1 } := by
        rw [← calls]
        exact staging.device
      rcases created with ⟨first, rfl, _⟩ | ⟨refused, rfl, _⟩
      · simp only [ih, device]
        constructor
        · intro rest i bound
          cases i with
          | zero => exact first
          | succ i =>
              have next := rest i (Nat.lt_of_succ_lt_succ bound)
              rwa [Nat.add_assoc, Nat.add_comm 1] at next
        · intro all i bound
          have next := all (i + 1) (Nat.succ_lt_succ bound)
          rwa [← Nat.add_assoc, Nat.add_right_comm] at next
      · simp only [reduceCtorEq, false_iff]
        intro granted
        exact refused (granted 0 (Nat.succ_pos _))

/-- A failed attempt leaves what is staged as it was if it fails in place. -/
theorem stagedQps_stagePeers_iff {peers : List (Fin n)} (nodup : peers.Nodup)
    {verbs : IBVerbs n} (fails : (stagePeers peers verbs).2 ≠ none) :
    (stagePeers peers verbs).1.stagedQps = verbs.stagedQps ↔
      ∃ (i : ℕ) (peer : Fin n), peers[i]? = some peer ∧
        ¬verbs.device.CreatesQp (verbs.device.createQpCalls + i) ∧
        (verbs.device.controlBlock (verbs.device.createQpCalls + i) = true →
          verbs.stagedQps peer = none) ∧
        ∀ (j : ℕ) (other : Fin n), j < i → peers[j]? = some other →
          verbs.device.CreatesQp (verbs.device.createQpCalls + j) ∧ verbs.stagedQps other =
            (verbs.device.createQp (verbs.device.createQpCalls + j)).map (⟨·, none⟩) := by
  induction peers generalizing verbs with
  | nil => exact absurd rfl fails
  | cons peer peers ih =>
      rcases List.nodup_cons.mp nodup with ⟨notIn, nodup⟩
      have staging := verbs.stageQp_staging peer
      have calls := verbs.createQpCalls_stageQp peer
      rcases verbs.stageQp_cases peer with ⟨others, created⟩
      simp only [stagePeers] at fails ⊢
      generalize verbs.stageQp peer = outcome at staging calls others created fails ⊢
      rcases outcome with ⟨staged, thrown⟩
      simp only at staging calls others
      have sameBlock := congrArg Device.controlBlock staging.device
      have sameCreate := congrArg Device.createQp staging.device
      simp only at sameBlock sameCreate
      rcases created with ⟨creates, rfl, present⟩ | ⟨refused, rfl, dropped⟩
      · have kept := (stagePeers_spec peers staged).2.1 peer notIn
        have rest := ih nodup fails
        simp only [Device.CreatesQp, sameBlock, sameCreate, calls] at rest creates ⊢
        by_cases same : verbs.stagedQps peer =
            (verbs.device.createQp verbs.device.createQpCalls).map (⟨·, none⟩)
        · have unchanged : staged.stagedQps = verbs.stagedQps := by
            funext other
            by_cases isPeer : other = peer
            · rw [isPeer, same]
              exact present
            · exact others other isPeer
          rw [unchanged] at rest
          rw [rest]
          constructor
          · rintro ⟨i, other, found, fails, drops, before⟩
            rw [Nat.add_assoc, Nat.add_comm 1] at fails drops
            refine ⟨i + 1, other, found, fails, drops, fun j another bound foundJ => ?_⟩
            cases j with
            | zero => exact ⟨creates, Option.some.inj foundJ ▸ same⟩
            | succ j =>
                have earlier := before j another (Nat.lt_of_succ_lt_succ bound) foundJ
                rwa [Nat.add_assoc, Nat.add_comm 1] at earlier
          · rintro ⟨i, other, found, fails, drops, before⟩
            cases i with
            | zero => exact absurd creates fails
            | succ i =>
                rw [Nat.add_comm i, ← Nat.add_assoc] at fails drops
                refine ⟨i, other, found, fails, drops, fun j another bound foundJ => ?_⟩
                have earlier := before (j + 1) another (Nat.succ_lt_succ bound) foundJ
                rwa [Nat.add_comm j, ← Nat.add_assoc] at earlier
        · apply iff_of_false
          · intro unchanged
            apply same
            rw [← unchanged, kept]
            exact present
          · rintro ⟨i, other, found, fails, _, before⟩
            cases i with
            | zero => exact fails creates
            | succ i => exact same (before 0 peer (Nat.succ_pos i) rfl).2
      · simp only at dropped ⊢
        constructor
        · intro unchanged
          refine ⟨0, peer, rfl, refused, fun fits => ?_, fun j _ bound => by cases bound⟩
          rw [← unchanged, dropped]
          exact if_pos fits
        · rintro ⟨i, other, found, _, drops, before⟩
          cases i with
          | zero =>
              cases Option.some.inj found
              funext another
              by_cases isPeer : another = peer
              · rw [isPeer, dropped]
                split
                next fits => exact (drops fits).symm
                next => rfl
              · exact others another isPeer
          | succ i => exact absurd (before 0 peer (Nat.succ_pos i) rfl).1 refused

theorem cqSize_stagePeers (peers : List (Fin n)) (verbs : IBVerbs n) :
    (stagePeers peers verbs).1.cqSize = verbs.cqSize := by
  induction peers generalizing verbs with
  | nil => rfl
  | cons peer peers ih =>
      have same : (verbs.stageQp peer).1.cqSize = verbs.cqSize := by
        simp only [stageQp]
        split <;> rfl
      simp only [stagePeers]
      generalize verbs.stageQp peer = outcome at same ⊢
      rcases outcome with ⟨staged, _ | exn⟩
      · exact (ih staged).trans same
      · exact same

theorem resizeMesgq_granted_iff (verbs : IBVerbs n) (size : ℕ) :
    (verbs.resizeMesgq size).2 = none ↔ verbs.QpsGranted := by
  have staging := stagePeers_granted_iff (List.finRange n)
    { verbs with cqSize := min size (verbs.device.maxSrs / 4) }
  rw [List.length_finRange] at staging
  have granted : verbs.QpsGranted ↔ ∀ i < n,
      verbs.device.CreatesQp (verbs.device.createQpCalls + i) := by
    constructor
    · intro all i bound
      exact all ⟨i, bound⟩
    · intro all peer
      exact all peer peer.isLt
  rw [granted, ← staging]
  simp only [resizeMesgq, stageQPs]
  generalize stagePeers (List.finRange n)
    { verbs with cqSize := min size (verbs.device.maxSrs / 4) } = outcome
  rcases outcome with ⟨staged, _ | exn⟩ <;> rfl

theorem cqSize_resizeMesgq (verbs : IBVerbs n) (size : ℕ) :
    (verbs.resizeMesgq size).1.cqSize = min size (verbs.device.maxSrs / 4) := by
  have same := cqSize_stagePeers (List.finRange n)
    { verbs with cqSize := min size (verbs.device.maxSrs / 4) }
  simp only [resizeMesgq, stageQPs]
  generalize stagePeers (List.finRange n)
    { verbs with cqSize := min size (verbs.device.maxSrs / 4) } = outcome at same
  rcases outcome with ⟨staged, _ | exn⟩ <;> exact same

/-- A resize that runs out of queue pairs leaves what is staged as it was if it fails in place. -/
theorem stagedQps_resizeMesgq_iff {verbs : IBVerbs n} {size : ℕ} (refused : ¬verbs.QpsGranted) :
    (verbs.resizeMesgq size).1.stagedQps = verbs.stagedQps ↔ verbs.FailsInPlace := by
  rw [← resizeMesgq_granted_iff verbs size] at refused
  simp only [resizeMesgq, stageQPs] at refused ⊢
  have unchanged := @stagedQps_stagePeers_iff n (List.finRange n) (List.nodup_finRange n)
    { verbs with cqSize := min size (verbs.device.maxSrs / 4) }
  generalize stagePeers (List.finRange n)
    { verbs with cqSize := min size (verbs.device.maxSrs / 4) } = outcome
    at refused unchanged ⊢
  rcases outcome with ⟨staged, _ | exn⟩
  · exact absurd rfl refused
  have place : ∀ (i : ℕ) (peer : Fin n), (List.finRange n)[i]? = some peer ↔ i = peer.val := by
    intro i peer
    simp [List.getElem?_eq_some_iff, Fin.ext_iff]
    omega
  simp only [place] at unchanged
  refine (unchanged (Option.some_ne_none exn)).trans ⟨?_, ?_⟩
  · rintro ⟨_, peer, rfl, fails, drops, before⟩
    exact ⟨peer, fails, drops, fun other earlier => before other other earlier rfl⟩
  · rintro ⟨peer, fails, drops, before⟩
    refine ⟨peer, peer, rfl, fails, drops, ?_⟩
    rintro _ other earlier rfl
    exact before other earlier

end IBVerbs

theorem MessageSort.setSlotRange_granted_iff (faults : SlotRangeFaults) (sort : MessageSort)
    (range : ℕ) : (sort.setSlotRange faults range).2 = none ↔ faults = .none := by
  rcases faults with ⟨_ | memslots, _ | regions, _ | slotToRegion⟩ <;>
    simp [MessageSort.setSlotRange, SlotRangeFaults.none]

namespace SortedQueue

variable {n : ℕ}

structure Observed (n : ℕ) where
  capacity : ℕ
  range : ℕ
  addedRange : ℕ × ℕ
  verbsCapacity : ℕ
  verbsRange : ℕ
  /-- The sizes of the tables of the message sort. -/
  slotRange : ℕ × ℕ
  maxNMsgs : ℕ
  cqSize : ℕ
  resized : Bool
  stagedQps : Fin n → Option Qp

def observed (state : SortedQueue n) : Observed n where
  capacity := state.queue.memreg.capacity
  range := state.queue.memreg.range
  addedRange := (state.queue.memreg.added.min, state.queue.memreg.added.max)
  verbsCapacity := state.queue.ibverbs.memreg.capacity
  verbsRange := state.queue.ibverbs.memreg.range
  slotRange := (state.msgsort.memslots.length, state.msgsort.slotToRegion.length)
  maxNMsgs := state.queue.maxNMsgs
  cqSize := state.queue.ibverbs.cqSize
  resized := state.queue.resized
  stagedQps := state.queue.ibverbs.stagedQps

/-- A call returns an error code, and has no effect if it runs out of memory. -/
def Harmless (before : SortedQueue n) (outcome : SortedQueue n × Option Err) : Prop :=
  ∃ code, outcome.2 = some code ∧ (code = .outOfMemory → outcome.1.observed = before.observed)

/-- The creation of queue pairs fails in place, when a previous attempt has requested the
reconnection and set the same size of the completion queues. -/
structure RefusedAgain (state : SortedQueue n) (nMsgs : ℕ) : Prop where
  resized : state.queue.resized = true
  cqSize : state.queue.ibverbs.cqSize = min nMsgs (state.queue.ibverbs.device.maxSrs / 4)
  inPlace : state.queue.ibverbs.FailsInPlace

/-- No allocation of a resize of the memory register is refused. -/
structure Faults.Granted (faults : Faults) : Prop where
  memreg : faults.memreg.Granted
  msgsort : faults.msgsort = .none

/-- A resize is rejected for its size, or nothing that it asks for is refused, or the first thing
that it changes. -/
def Clean (state : SortedQueue n) : Resize → Prop
  | .mesgQueue nMsgs =>
      nMsgs > 2 ^ 63 + 2 ^ 10 ∨ state.queue.ibverbs.QpsGranted ∨ state.RefusedAgain nMsgs
  | .memreg faults nRegs =>
      nRegs > 2 ^ 64 - 2 ∨
      (nRegs + 1 ≤ state.queue.memreg.capacity ∧
        (state.queue.ibverbs.QpsGranted ∨ state.RefusedAgain state.queue.maxNMsgs)) ∨
      (state.queue.memreg.capacity < nRegs + 1 ∧
        (faults.memreg.tableGlobal.Refuses ∨
          (nRegs + 1 ≤ 2 ^ 31 - 1 ∧ nRegs + 1 ≤ state.queue.ibverbs.device.maxMr ∧
            faults.Granted ∧ state.queue.ibverbs.QpsGranted)))

/-- What holds in runs with clean resizes. -/
structure Level (state : SortedQueue n) : Prop where
  full : ∃ size, state.queue.memreg.rooms state.queue.ibverbs = .full size
  bounded : state.queue.maxNMsgs ≤ 2 ^ 63 + 2 ^ 10

/-- What a resize of the message queue does. -/
structure MesgQueueResized (state : SortedQueue n) (nMsgs : ℕ) (after : SortedQueue n)
    (code : Option Err) : Prop where
  sameRooms : after.queue.memreg.rooms after.queue.ibverbs =
    state.queue.memreg.rooms state.queue.ibverbs
  sameSort : after.msgsort = state.msgsort
  sameDevice : after.queue.ibverbs.device = { state.queue.ibverbs.device with
    createQpCalls := after.queue.ibverbs.device.createQpCalls }
  outcome : state.queue.ibverbs.QpsGranted ∧ code = some .success ∧
      after.queue.maxNMsgs = max state.queue.maxNMsgs nMsgs ∨
    ¬state.queue.ibverbs.QpsGranted ∧ code = some .outOfMemory ∧
      after.queue.maxNMsgs = state.queue.maxNMsgs ∧
      (after.observed = state.observed ↔ state.RefusedAgain nMsgs)

theorem resizeMesgQueue_cases (state : SortedQueue n) {nMsgs : ℕ}
    (fits : nMsgs ≤ 2 ^ 63 + 2 ^ 10) :
    MesgQueueResized state nMsgs (state.resizeMesgQueue nMsgs).1
      (state.resizeMesgQueue nMsgs).2 := by
  have spec := state.queue.ibverbs.resizeMesgq_spec nMsgs
  have granted := state.queue.ibverbs.resizeMesgq_granted_iff nMsgs
  have cqSize := state.queue.ibverbs.cqSize_resizeMesgq nMsgs
  have inPlace := @state.queue.ibverbs.stagedQps_resizeMesgq_iff n nMsgs
  simp only [resizeMesgQueue, MessageQueue.resizeMesgQueue, if_neg (Nat.not_lt.mpr fits)]
  generalize state.queue.ibverbs.resizeMesgq nMsgs = outcome at spec granted cqSize inPlace
  rcases outcome with ⟨ibverbs, thrown⟩
  simp only at spec granted cqSize inPlace
  rcases spec with ⟨staging, _, ⟨rfl, _⟩ | ⟨rfl, _⟩⟩
  · refine ⟨?_, rfl, staging.device, Or.inl ⟨granted.mp rfl, rfl, rfl⟩⟩
    simp only [MemoryTable.rooms, staging.sameMemreg]
  · have refused : ¬state.queue.ibverbs.QpsGranted := fun all => by cases granted.mpr all
    refine ⟨?_, rfl, staging.device, Or.inr ⟨refused, rfl, rfl, ?_⟩⟩
    · simp only [MemoryTable.rooms, staging.sameMemreg]
    · constructor
      · intro same
        simp only [observed, Observed.mk.injEq] at same
        exact ⟨same.2.2.2.2.2.2.2.2.1.symm, same.2.2.2.2.2.2.2.1.symm.trans cqSize,
          (inPlace refused).mp same.2.2.2.2.2.2.2.2.2⟩
      · intro again
        simp only [observed, staging.sameMemreg, cqSize, again.cqSize, again.resized,
          (inPlace refused).mpr again.inPlace]

theorem resizeMesgQueue_rejected {state : SortedQueue n} {nMsgs : ℕ}
    (tooMany : nMsgs > 2 ^ 63 + 2 ^ 10) :
    state.resizeMesgQueue nMsgs = (state, some .outOfMemory) := by
  simp only [resizeMesgQueue, MessageQueue.resizeMesgQueue, if_pos tooMany]

/-- A resize of the message queue is harmless if it succeeds, is rejected, or is refused as the
previous one was. -/
theorem harmless_resizeMesgQueue_iff (state : SortedQueue n) (nMsgs : ℕ) :
    Harmless state (state.resizeMesgQueue nMsgs) ↔ Clean state (.mesgQueue nMsgs) := by
  simp only [Clean]
  by_cases tooMany : nMsgs > 2 ^ 63 + 2 ^ 10
  · rw [resizeMesgQueue_rejected tooMany]
    exact iff_of_true ⟨_, rfl, fun _ => rfl⟩ (Or.inl tooMany)
  · rcases (resizeMesgQueue_cases state (Nat.not_lt.mp tooMany)).outcome with
      ⟨granted, code, _⟩ | ⟨refused, code, _, same⟩
    · refine iff_of_true ⟨_, code, ?_⟩ (Or.inr (Or.inl granted))
      intro impossible
      cases impossible
    · constructor
      · rintro ⟨_, returned, harmless⟩
        rw [code] at returned
        cases returned
        exact Or.inr (Or.inr (same.mp (harmless rfl)))
      · intro clean
        refine ⟨_, code, fun _ => same.mpr ?_⟩
        rcases clean with impossible | granted | again
        · exact absurd impossible tooMany
        · exact absurd granted refused
        · exact again

theorem Level.of_same {state after : SortedQueue n} (level : state.Level)
    (sameRooms : after.queue.memreg.rooms after.queue.ibverbs =
      state.queue.memreg.rooms state.queue.ibverbs)
    (sameMaxNMsgs : after.queue.maxNMsgs = state.queue.maxNMsgs) : after.Level := by
  refine ⟨?_, ?_⟩
  · rw [sameRooms]
    exact level.full
  · rw [sameMaxNMsgs]
    exact level.bounded

theorem Level.resizeMesgQueue {state : SortedQueue n} (level : state.Level) (nMsgs : ℕ) :
    (state.resizeMesgQueue nMsgs).1.Level := by
  by_cases tooMany : nMsgs > 2 ^ 63 + 2 ^ 10
  · rw [resizeMesgQueue_rejected tooMany]
    exact level
  · have fits := Nat.not_lt.mp tooMany
    have resized := resizeMesgQueue_cases state fits
    refine ⟨?_, ?_⟩
    · rw [resized.sameRooms]
      exact level.full
    · rcases resized.outcome with ⟨_, _, maxNMsgs⟩ | ⟨_, _, maxNMsgs, _⟩
      · rw [maxNMsgs]
        exact max_le level.bounded fits
      · rw [maxNMsgs]
        exact level.bounded

theorem reserveMemreg_enough (faults : Faults) {state : SortedQueue n} {size : ℕ}
    (enough : size ≤ state.queue.memreg.capacity) :
    state.reserveMemreg faults size = (state, none) := by
  rw [reserveMemreg, if_neg (Nat.not_lt.mpr enough)]

/-- Reserving slots changes nothing of the verbs layer but its slots. -/
theorem reserveMemreg_keeps (faults : Faults) (state : SortedQueue n) (size : ℕ) :
    state.queue.ibverbs.SameButMemory (state.reserveMemreg faults size).1.queue.ibverbs ∧
      (state.reserveMemreg faults size).1.queue.maxNMsgs = state.queue.maxNMsgs ∧
      (state.reserveMemreg faults size).1.queue.resized = state.queue.resized := by
  simp only [reserveMemreg]
  split
  next =>
    have keeps := state.queue.memreg.reserve_keeps faults.memreg state.queue.ibverbs size
    generalize state.queue.memreg.reserve faults.memreg state.queue.ibverbs size = outcome at keeps
    rcases outcome with ⟨⟨memreg, ibverbs⟩, _ | exn⟩
    · exact ⟨keeps, rfl, rfl⟩
    · exact ⟨keeps, rfl, rfl⟩
  next => exact ⟨.refl _, rfl, rfl⟩

theorem reserveMemreg_refused {faults : Faults} {state : SortedQueue n} {old size : ℕ}
    (refuses : faults.memreg.tableGlobal.Refuses)
    (full : state.queue.memreg.rooms state.queue.ibverbs = .full old) (grows : old < size) :
    (state.reserveMemreg faults size).2 = some .badAlloc ∧
      (state.reserveMemreg faults size).1.queue.memreg.rooms
          (state.reserveMemreg faults size).1.queue.ibverbs =
        state.queue.memreg.rooms state.queue.ibverbs ∧
      (state.reserveMemreg faults size).1.observed = state.observed := by
  have capacity : state.queue.memreg.capacity = old := congrArg Rooms.capacity full
  have tableGlobal : state.queue.memreg.memreg.globalRegister.capacity = old :=
    congrArg Rooms.tableGlobal full
  rcases MemoryTable.reserve_refused state.queue.ibverbs refuses (tableGlobal ▸ grows) with
    ⟨throws, sameVerbs, sameRooms⟩
  simp only [reserveMemreg, capacity, if_pos grows]
  generalize state.queue.memreg.reserve faults.memreg state.queue.ibverbs size = outcome
    at throws sameVerbs sameRooms
  rcases outcome with ⟨⟨memreg, ibverbs⟩, thrown⟩
  simp only at throws sameVerbs sameRooms
  subst throws sameVerbs
  refine ⟨rfl, sameRooms, ?_⟩
  simp only [MemoryTable.rooms, Rooms.mk.injEq] at sameRooms
  rcases sameRooms with ⟨sameCapacity, sameGlobal, sameLocal, sameMin, sameMax, _⟩
  simp only [observed, MemoryTable.range, CombinedMemoryRegister.range, sameCapacity, sameGlobal,
    sameLocal, sameMin, sameMax]

/-- Once its first allocation is granted, more slots change what can be observed. -/
theorem reserveMemreg_granted {faults : Faults} {state : SortedQueue n} {old size : ℕ}
    (granted : ¬faults.memreg.tableGlobal.Refuses)
    (full : state.queue.memreg.rooms state.queue.ibverbs = .full old) (grows : old < size) :
    (state.reserveMemreg faults size).1.queue.memreg.memreg.globalRegister.capacity = size ∧
      ((state.reserveMemreg faults size).2 = none ↔
        size ≤ 2 ^ 31 - 1 ∧ size ≤ state.queue.ibverbs.device.maxMr ∧ faults.Granted) ∧
      ((state.reserveMemreg faults size).2 = none →
        (state.reserveMemreg faults size).1.queue.memreg.rooms
          (state.reserveMemreg faults size).1.queue.ibverbs = .full size) := by
  have capacity : state.queue.memreg.capacity = old := congrArg Rooms.capacity full
  rcases MemoryTable.reserve_granted granted full grows with ⟨globalSize, fits, full⟩
  simp only [reserveMemreg, capacity, if_pos grows]
  generalize state.queue.memreg.reserve faults.memreg state.queue.ibverbs size = outcome
    at globalSize fits full
  rcases outcome with ⟨⟨memreg, ibverbs⟩, _ | exn⟩
  · rcases fits.mp rfl with ⟨small, supported, memregGranted⟩
    refine ⟨globalSize, ?_, fun _ => full rfl⟩
    rw [MessageSort.setSlotRange_granted_iff]
    constructor
    · intro sortGranted
      exact ⟨small, supported, memregGranted, sortGranted⟩
    · intro all
      exact all.2.2.msgsort
  · refine ⟨globalSize, ?_, fun impossible => by cases impossible⟩
    simp only [reduceCtorEq, false_iff]
    rintro ⟨small, supported, all⟩
    cases fits.mpr ⟨small, supported, all.memreg⟩

theorem observed_ne_of_grown {state after : SortedQueue n} {old size : ℕ}
    (full : state.queue.memreg.rooms state.queue.ibverbs = .full old) (grows : old < size)
    (grown : after.queue.memreg.memreg.globalRegister.capacity = size) :
    after.observed ≠ state.observed := by
  intro same
  have sameRange := congrArg Observed.range same
  have tableGlobal : state.queue.memreg.memreg.globalRegister.capacity = old :=
    congrArg Rooms.tableGlobal full
  have tableLocal : state.queue.memreg.memreg.localRegister.capacity = old :=
    congrArg Rooms.tableLocal full
  simp only [observed, MemoryTable.range, CombinedMemoryRegister.range, grown, tableGlobal,
    tableLocal] at sameRange
  omega

/-- Once the slots are reserved, a resize of the memory register is one of the message queue. -/
theorem resizeMemreg_reserved {faults : Faults} {state middle : SortedQueue n}
    {nRegs : ℕ} (fits : ¬nRegs > 2 ^ 64 - 2) (bounded : state.queue.maxNMsgs ≤ 2 ^ 63 + 2 ^ 10)
    (reserves : state.reserveMemreg faults (nRegs + 1) = (middle, none)) :
    middle.queue.ibverbs.QpsGranted ∧
        state.resizeMemreg faults nRegs =
          ({ (middle.resizeMesgQueue state.queue.maxNMsgs).1 with
            queue := { (middle.resizeMesgQueue state.queue.maxNMsgs).1.queue with
              nextMemRegSize := nRegs + 1 } }, some .success) ∨
      ¬middle.queue.ibverbs.QpsGranted ∧
        state.resizeMemreg faults nRegs =
          ((middle.resizeMesgQueue state.queue.maxNMsgs).1, some .outOfMemory) := by
  have outcome := (resizeMesgQueue_cases middle bounded).outcome
  have sameMax := (reserveMemreg_keeps faults state (nRegs + 1)).2.1
  rw [reserves] at sameMax
  simp only at sameMax
  simp only [resizeMemreg, if_neg fits, reserves, sameMax]
  generalize middle.resizeMesgQueue state.queue.maxNMsgs = resized at outcome
  rcases resized with ⟨after, code⟩
  rcases outcome with ⟨granted, isSuccess, _⟩ | ⟨refused, isRefused, _⟩
  · simp only at isSuccess
    subst isSuccess
    exact Or.inl ⟨granted, rfl⟩
  · simp only at isRefused
    subst isRefused
    exact Or.inr ⟨refused, rfl⟩

/-- A resize of the memory register for which nothing is reserved is as harmless as that of the
message queue which it makes. -/
theorem harmless_resizeMemreg_enough {state : SortedQueue n} (faults : Faults)
    {nRegs : ℕ} (bounded : state.queue.maxNMsgs ≤ 2 ^ 63 + 2 ^ 10) (fits : ¬nRegs > 2 ^ 64 - 2)
    (enough : nRegs + 1 ≤ state.queue.memreg.capacity) :
    Harmless state (state.resizeMemreg faults nRegs) ↔
      Harmless state (state.resizeMesgQueue state.queue.maxNMsgs) := by
  have cases := resizeMesgQueue_cases state bounded
  rcases resizeMemreg_reserved fits bounded (reserveMemreg_enough faults enough) with
    ⟨granted, resized⟩ | ⟨refused, resized⟩
  · rw [resized]
    have succeeds : (state.resizeMesgQueue state.queue.maxNMsgs).2 = some .success := by
      rcases cases.outcome with ⟨_, code, _⟩ | ⟨refused, _⟩
      · exact code
      · exact absurd granted refused
    refine iff_of_true ⟨_, rfl, ?_⟩ ⟨_, succeeds, ?_⟩
    · intro impossible
      cases impossible
    · intro impossible
      cases impossible
  · rw [resized]
    have fails : (state.resizeMesgQueue state.queue.maxNMsgs).2 = some .outOfMemory := by
      rcases cases.outcome with ⟨granted, _⟩ | ⟨_, code, _⟩
      · exact absurd granted refused
      · exact code
    simp only [Harmless, fails]

/-- Once the global slots of the memory table have grown, nothing may be refused any more. -/
theorem harmless_resizeMemreg_grown {state : SortedQueue n} {faults : Faults}
    {nRegs old : ℕ} (bounded : state.queue.maxNMsgs ≤ 2 ^ 63 + 2 ^ 10)
    (full : state.queue.memreg.rooms state.queue.ibverbs = .full old)
    (fits : ¬nRegs > 2 ^ 64 - 2) (grows : old < nRegs + 1)
    (granted : ¬faults.memreg.tableGlobal.Refuses) :
    Harmless state (state.resizeMemreg faults nRegs) ↔
      nRegs + 1 ≤ 2 ^ 31 - 1 ∧ nRegs + 1 ≤ state.queue.ibverbs.device.maxMr ∧ faults.Granted ∧
        state.queue.ibverbs.QpsGranted := by
  rcases reserveMemreg_granted granted full grows with ⟨globalSize, succeeds, _⟩
  have keeps := reserveMemreg_keeps faults state (nRegs + 1)
  generalize reserves : state.reserveMemreg faults (nRegs + 1) = reserved
    at globalSize succeeds keeps
  rcases reserved with ⟨middle, _ | exn⟩
  · rcases succeeds.mp rfl with ⟨small, supported, allGranted⟩
    have sameQps : middle.queue.ibverbs.QpsGranted ↔ state.queue.ibverbs.QpsGranted := by
      have same := keeps.1
      simp only at same
      rw [same]
      exact Iff.rfl
    rcases resizeMemreg_reserved fits bounded reserves with
      ⟨qps, resized⟩ | ⟨noQps, resized⟩
    · rw [resized]
      refine iff_of_true ⟨_, rfl, ?_⟩ ⟨small, supported, allGranted, sameQps.mp qps⟩
      intro impossible
      cases impossible
    · rw [resized]
      have sameRooms := (resizeMesgQueue_cases middle bounded).sameRooms
      have grown := (congrArg Rooms.tableGlobal sameRooms).trans globalSize
      constructor
      · rintro ⟨code, returned, harmless⟩
        cases returned
        exact absurd (harmless rfl) (observed_ne_of_grown full grows grown)
      · intro clean
        exact absurd (sameQps.mpr clean.2.2.2) noQps
  · constructor
    · rintro ⟨code, returned, harmless⟩
      simp only [resizeMemreg, if_neg fits, reserves] at returned harmless
      -- an exception that is caught comes back as the code of a failed allocation
      have isRefused : code = .outOfMemory := by
        cases exn with
        | badAlloc | lengthError =>
            cases returned
            rfl
        | exception => cases returned
      exact absurd (harmless isRefused) (observed_ne_of_grown full grows globalSize)
    · intro clean
      cases succeeds.mpr ⟨clean.1, clean.2.1, clean.2.2.1⟩

theorem harmless_resizeMemreg_iff {state : SortedQueue n} (level : state.Level)
    (faults : Faults) (nRegs : ℕ) :
    Harmless state (state.resizeMemreg faults nRegs) ↔ Clean state (.memreg faults nRegs) := by
  rcases level.full with ⟨old, full⟩
  have capacity : state.queue.memreg.capacity = old := congrArg Rooms.capacity full
  simp only [Clean, capacity]
  by_cases tooLarge : nRegs > 2 ^ 64 - 2
  · rw [resizeMemreg, if_pos tooLarge]
    exact iff_of_true ⟨_, rfl, fun _ => rfl⟩ (Or.inl tooLarge)
  by_cases enough : nRegs + 1 ≤ old
  · -- nothing is reserved
    have alone := harmless_resizeMesgQueue_iff state state.queue.maxNMsgs
    have bounded : ¬state.queue.maxNMsgs > 2 ^ 63 + 2 ^ 10 := Nat.not_lt.mpr level.bounded
    simp only [Clean, bounded, false_or] at alone
    simp only [tooLarge, enough, Nat.not_lt.mpr enough, true_and, false_and, false_or, or_false,
      ← alone]
    exact harmless_resizeMemreg_enough faults level.bounded tooLarge (capacity ▸ enough)
  · have grows : old < nRegs + 1 := Nat.not_le.mp enough
    simp only [tooLarge, enough, grows, true_and, false_and, false_or]
    by_cases refuses : faults.memreg.tableGlobal.Refuses
    · have refused := reserveMemreg_refused refuses full grows
      simp only [resizeMemreg, if_neg tooLarge]
      generalize state.reserveMemreg faults (nRegs + 1) = reserved at refused
      rcases reserved with ⟨middle, thrown⟩
      rcases refused with ⟨throws, _, same⟩
      simp only at throws same
      subst throws
      exact iff_of_true ⟨_, rfl, fun _ => same⟩ (Or.inl refuses)
    · simp only [refuses, false_or]
      exact harmless_resizeMemreg_grown level.bounded full tooLarge grows refuses

theorem Level.resizeMemreg {state : SortedQueue n} (level : state.Level)
    {faults : Faults} {nRegs : ℕ} (clean : Clean state (.memreg faults nRegs)) :
    (state.resizeMemreg faults nRegs).1.Level := by
  rcases level.full with ⟨old, full⟩
  have capacity : state.queue.memreg.capacity = old := congrArg Rooms.capacity full
  simp only [Clean, capacity] at clean
  by_cases tooLarge : nRegs > 2 ^ 64 - 2
  · rw [SortedQueue.resizeMemreg, if_pos tooLarge]
    exact level
  -- a resize of the message queue follows
  have follow : ∀ middle : SortedQueue n, middle.Level →
      state.reserveMemreg faults (nRegs + 1) = (middle, none) →
      (state.resizeMemreg faults nRegs).1.Level := by
    intro middle middleLevel reserves
    have after := middleLevel.resizeMesgQueue state.queue.maxNMsgs
    rcases resizeMemreg_reserved tooLarge level.bounded reserves with
      ⟨_, resized⟩ | ⟨_, resized⟩
    · rw [resized]
      exact after.of_same rfl rfl
    · rw [resized]
      exact after
  rcases clean with impossible | ⟨enough, _⟩ | ⟨grows, clean⟩
  · exact absurd impossible tooLarge
  · exact follow state level (reserveMemreg_enough faults (capacity ▸ enough))
  · have keeps := reserveMemreg_keeps faults state (nRegs + 1)
    by_cases refuses : faults.memreg.tableGlobal.Refuses
    · have refused := reserveMemreg_refused refuses full grows
      simp only [SortedQueue.resizeMemreg, if_neg tooLarge]
      generalize state.reserveMemreg faults (nRegs + 1) = reserved at refused keeps
      rcases reserved with ⟨middle, thrown⟩
      rcases refused with ⟨throws, sameRooms, _⟩
      simp only at throws
      subst throws
      exact level.of_same sameRooms keeps.2.1
    · have granted := reserveMemreg_granted refuses full grows
      rcases clean.resolve_left refuses with ⟨small, supported, allGranted, _⟩
      generalize reserves : state.reserveMemreg faults (nRegs + 1) = reserved at granted keeps
      rcases reserved with ⟨middle, thrown⟩
      rcases granted with ⟨_, succeeds, fullAfter⟩
      have throws := succeeds.mpr ⟨small, supported, allGranted⟩
      simp only at throws
      subst throws
      exact follow middle ⟨⟨_, fullAfter rfl⟩, keeps.2.1 ▸ level.bounded⟩ reserves

/-- A resize keeps the level if it is clean, and only a clean one is harmless. -/
theorem harmless_lpfResize_iff {state : SortedQueue n} (level : state.Level)
    (aborted : Bool) (call : Resize) :
    Harmless state (state.lpfResize aborted call) ↔ aborted = true ∨ Clean state call := by
  cases aborted with
  | true =>
      refine iff_of_true ⟨_, rfl, ?_⟩ (Or.inl rfl)
      intro impossible
      cases impossible
  | false =>
      simp only [lpfResize, Bool.false_eq_true, if_false, false_or]
      cases call with
      | mesgQueue nMsgs => exact harmless_resizeMesgQueue_iff state nMsgs
      | memreg faults nRegs => exact harmless_resizeMemreg_iff level faults nRegs

theorem Level.lpfResize {state : SortedQueue n} (level : state.Level)
    {aborted : Bool} {call : Resize} (clean : aborted = true ∨ Clean state call) :
    (state.lpfResize aborted call).1.Level := by
  cases aborted with
  | true => exact level
  | false =>
      have clean := clean.resolve_left Bool.false_ne_true
      cases call with
      | mesgQueue nMsgs => exact level.resizeMesgQueue nMsgs
      | memreg faults nRegs => exact level.resizeMemreg clean

/-- The constructor does not throw. -/
def Constructs (device : Device n) : Prop :=
  (MemoryTable.initial.reserve .none (IBVerbs.initial device) 1).2 = none

/-- Resizes are clean or have no effect because the context has aborted. -/
def CleanResizes (state : SortedQueue n) (call : Call n) : Prop :=
  ∀ aborted resize, call = .resize aborted resize → aborted = true ∨ Clean state resize

theorem level_initial {device : Device n} (constructs : Constructs device)
    (msgGrainPower : ℕ) : (initial device msgGrainPower).Level :=
  ⟨⟨1, MemoryTable.rooms_initial constructs⟩, Nat.zero_le _⟩

theorem Level.step {pid : Fin n} {before after : SortedQueue n} {call : Call n}
    (level : before.Level)
    (clean : CleanResizes before call) (step : Step pid before call after) : after.Level := by
  cases call with
  | resize aborted resize =>
      rw [← step]
      exact level.lpfResize (clean aborted resize rfl)
  | addLocalReg mem size =>
      rcases step with ⟨result, adds⟩
      rcases addLocalReg_cases adds with ⟨memreg, ibverbs, registers, same, _⟩
      apply level.of_same
      · rw [same]
        exact (MemoryTable.rooms_addLocal registers).1
      · rw [same]
  | addGlobalReg mem size =>
      rcases step with ⟨slot, adds⟩
      rcases addGlobalReg_cases adds with ⟨memreg, registers, same, _⟩
      apply level.of_same
      · rw [same]
        exact MemoryTable.rooms_addGlobal _ registers
      · rw [same]
  | removeReg slot =>
      rcases removeReg_cases step with ⟨_, memreg, ibverbs, _, removes, same, _⟩
      apply level.of_same
      · rw [same]
        exact (MemoryTable.rooms_remove removes).1
      · rw [same]
  | sync task abort attr answers =>
      rcases step with ⟨_, result, follows⟩
      rcases sync_cases follows with ⟨_, _, _, ibverbs, _, registering, sameMax, framed⟩
      refine level.of_same ?_ sameMax
      rw [← (MemoryTable.rooms_sync registering).1, MemoryTable.rooms, framed.sameMemreg]
      rfl
  | progress =>
      rcases step with ⟨ibverbs, progress, rfl⟩
      refine level.of_same ?_ rfl
      simp only [MemoryTable.rooms, progress.framed.sameMemreg]

/-- In a run all of whose resizes are clean the next one is harmless exactly if it is clean too. -/
theorem resize_harmless_iff {pid : Fin n} {device : Device n} {msgGrainPower : ℕ}
    (constructs : Constructs device) {state : SortedQueue n}
    (run : Transition.Reachable (Step pid) CleanResizes (initial device msgGrainPower) state)
    (aborted : Bool) (call : Resize) :
    Harmless state (state.lpfResize aborted call) ↔ aborted = true ∨ Clean state call := by
  have level := run.invariant (level_initial constructs msgGrainPower)
    fun _ _ _ level permitted step => level.step permitted step
  exact harmless_lpfResize_iff level aborted call

/-- One of two processes has resized its message queue. -/
def prepared : SortedQueue 2 := ((initial (.generous 2) 4).lpfResize false (.mesgQueue 4)).1

theorem resize_harmless_iff_prepared :
    Harmless prepared (prepared.lpfResize false (.memreg ⟨.none, .none⟩ 3)) := by
  have granted : ∀ state : SortedQueue 2, state.queue.ibverbs.device.createQp = some →
      state.queue.ibverbs.device.BlocksFit → state.queue.ibverbs.QpsGranted := by
    intro state creates fit peer
    exact ⟨fit _, by rw [creates]; rfl⟩
  have clean : CleanResizes (initial (.generous 2) 4) (.resize false (.mesgQueue 4)) := by
    intro aborted resize same
    cases same
    exact Or.inr (Or.inr (Or.inl (granted _ rfl fun _ => rfl)))
  have run : Transition.Reachable (Step (0 : Fin 2)) CleanResizes (initial (.generous 2) 4)
      prepared := .tail .refl clean rfl
  have constructs : Constructs (.generous 2) := rfl
  have refuses : ¬ReserveFaults.none.Refuses := by simp [ReserveFaults.Refuses, ReserveFaults.none]
  apply (resize_harmless_iff constructs run false _).mpr
  refine Or.inr (Or.inr (Or.inr ⟨by decide, Or.inr ⟨by decide, by decide, ?_, ?_⟩⟩))
  · exact ⟨⟨refuses, refuses, rfl, refuses, refuses⟩, rfl⟩
  · exact granted _ rfl fun _ => rfl

def withoutQps : Device 1 := { Device.generous 1 with createQp := fun _ => none }

/-- A resize that gets no queue pair runs out of memory and requests a reconnection. -/
theorem refused_resize_harms : Constructs withoutQps ∧
    ¬∀ state, Transition.Reachable (Step 0) (fun _ _ => True) (initial withoutQps 4) state →
      ∀ aborted call, Harmless state (state.lpfResize aborted call) := by
  refine ⟨rfl, fun harmless => ?_⟩
  rcases harmless _ .refl false (.mesgQueue 1) with ⟨code, returned, same⟩
  have fails : ((initial withoutQps 4).lpfResize false (.mesgQueue 1)).2 = some .outOfMemory := rfl
  rw [fails] at returned
  cases returned
  have sameResized := congrArg Observed.resized (same rfl)
  cases sameResized

end SortedQueue

end Talpf
