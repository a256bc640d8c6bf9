import Talpf.MemoryTable.Capacities
import Talpf.MessageQueue.FailedResizes
import Talpf.MessageSort.SlotRange

/-!
# The tables that slots index

A slot number indexes the registers of the memory table and of the verbs layer,
the set of pending slots and two tables of the message sort.  A resize grows
them one after the other, and not at all if the memory table has grown enough
before.  After the message sort has failed to grow, the next resize may succeed
without growing it.
-/

namespace Talpf

open Spmd

namespace SortedQueue

variable {n : ℕ} {pid : Fin n} {state : SortedQueue n} {slot : ℕ}

/-- A slot number is a valid index of all tables. -/
structure InRange (state : SortedQueue n) (slot : ℕ) : Prop where
  memreg : slot < state.queue.memreg.range
  record : (state.queue.memreg.memreg.lookup slot).isSome
  addedMin : state.queue.memreg.added.min ≤ slot
  addedMax : slot ≤ state.queue.memreg.added.max
  memslots : slot < state.msgsort.memslots.length
  slotToRegion : slot < state.msgsort.slotToRegion.length
  verbs : state.queue.memreg.added.contains slot = false →
    (state.queue.ibverbs.memreg.lookup (state.queue.memreg.verbSlot slot)).isSome

/-- The number of live registrations. -/
def liveCount (state : SortedQueue n) : ℕ :=
  state.queue.memreg.memreg.localRegister.dealer.liveCount +
    state.queue.memreg.memreg.globalRegister.dealer.liveCount

/-- A resize of the message queue grows no table that slots index. -/
theorem resizeMesgQueue_keeps (state : SortedQueue n) (nMsgs : ℕ) :
    (state.resizeMesgQueue nMsgs).1.msgsort = state.msgsort ∧
      (state.resizeMesgQueue nMsgs).1.queue.memreg = state.queue.memreg ∧
      (state.resizeMesgQueue nMsgs).1.queue.ibverbs.memreg = state.queue.ibverbs.memreg ∧
      ((state.resizeMesgQueue nMsgs).2 = some .success → state.queue.ibverbs.QpsGranted) := by
  have staging := (state.queue.ibverbs.resizeMesgq_spec nMsgs).1
  have granted := (state.queue.ibverbs.resizeMesgq_granted_iff nMsgs).mp
  refine ⟨rfl, ?_⟩
  simp only [resizeMesgQueue, MessageQueue.resizeMesgQueue]
  split
  next => exact ⟨rfl, rfl, fun impossible => by cases impossible⟩
  next =>
    generalize state.queue.ibverbs.resizeMesgq nMsgs = outcome at staging granted
    rcases outcome with ⟨ibverbs, _ | exn⟩
    · exact ⟨rfl, staging.sameMemreg, fun _ => granted rfl⟩
    · refine ⟨rfl, staging.sameMemreg, ?_⟩
      intro impossible
      cases exn <;> cases impossible

/-- A message queue and the size of its last successful resize. -/
structure Limited (n : ℕ) where
  state : SortedQueue n
  limit : ℕ

namespace Limited

def initial (device : Device n) (msgGrainPower : ℕ) : Limited n :=
  ⟨.initial device msgGrainPower, 0⟩

/-- A resize that succeeds sets the limit; in a context that has aborted it has no effect. -/
def note (before : Limited n) : Call n → ℕ
  | .resize false (.memreg faults nRegs) =>
      if (before.state.resizeMemreg faults nRegs).2 = some .success then nRegs else before.limit
  | _ => before.limit

def Step (pid : Fin n) (before : Limited n) (call : Call n) (after : Limited n) : Prop :=
  SortedQueue.Step pid before.state call after.state ∧ after.limit = before.note call

/-- The live registrations stay within the limit, memory areas within the address space, and only
slots in use are deregistered. -/
def Permitted (limited : Limited n) : Call n → Prop
  | .addLocalReg mem size | .addGlobalReg mem size =>
      limited.state.liveCount + 1 ≤ limited.limit ∧ mem + size ≤ sizeMax
  | .removeReg slot => MemoryTable.InUse limited.state.queue.memreg.memreg slot
  | .resize _ _ | .sync _ _ _ _ | .progress => True

/-- Registrations and deregistrations index the tables within their bounds, and a sync fails no
assertion. -/
structure CapacitiesAgree (pid : Fin n) (limited : Limited n) : Prop where
  slots : ∀ slot, MemoryTable.InUse limited.state.queue.memreg.memreg slot →
    limited.state.InRange slot
  addLocalReg : ∀ mem size, limited.Permitted (.addLocalReg mem size) → ∃ after result,
    limited.state.addLocalReg pid mem size = some (after, result) ∧
      ∀ slot, result = .ok slot → after.InRange slot
  addGlobalReg : ∀ mem size, limited.Permitted (.addGlobalReg mem size) → ∃ after slot,
    limited.state.addGlobalReg mem size = some (after, slot) ∧ after.InRange slot
  removeReg : ∀ slot, limited.Permitted (.removeReg slot) → (limited.state.removeReg slot).isSome
  sync : (limited.state.queue.memreg.sync limited.state.queue.ibverbs).Safe

/-- A resize for which the memory table has grown enough before finds the tables of the message sort
large enough, and a sync that throws does so at its first pending slot. -/
def Covered (limited : Limited n) : Call n → Prop
  | .resize false (.memreg _ nRegs) =>
      nRegs + 1 ≤ limited.state.queue.memreg.capacity →
        limited.state.queue.ibverbs.QpsGranted →
          2 * nRegs ≤ limited.state.msgsort.slotToRegion.length
  | .sync _ _ _ answers =>
      ∀ answer ∈ (answers.take (2 * limited.state.queue.memreg.added.elements.length)).tail,
        MemoryTable.reports answer = false
  | .resize true _ | .resize false (.mesgQueue _) | .addLocalReg _ _ | .addGlobalReg _ _
  | .removeReg _ | .progress => True

/-- All tables have room for the limit and for the slots that were ever dealt. -/
structure Enough (limited : Limited n) : Prop where
  roomy : limited.state.queue.memreg.Roomy limited.state.queue.ibverbs
  below : limited.limit < limited.state.queue.memreg.capacity
  dealt : ∃ bound, MemoryTable.Dealt limited.state.queue.memreg.memreg bound ∧
    limited.limit ≤ bound ∧ 2 * bound ≤ limited.state.msgsort.slotToRegion.length
  prefixed : limited.state.msgsort.Prefixed
  memslots : limited.state.msgsort.memslots.length ≤ 2 * limited.state.queue.memreg.capacity + 1

namespace Enough

variable {limited : Limited n}

theorem inRange (enough : limited.Enough)
    (inUse : MemoryTable.InUse limited.state.queue.memreg.memreg slot) :
    limited.state.InRange slot := by
  have roomy := enough.roomy
  have below : MemoryTable.Dealt limited.state.queue.memreg.memreg
      limited.state.queue.memreg.capacity := ⟨roomy.globals.dealt.le, roomy.locals.dealt.le⟩
  rcases enough.dealt with ⟨bound, dealt, _, fits⟩
  have slotToRegion := Nat.lt_of_lt_of_le (dealt.slot_lt inUse) fits
  refine
    { memreg := MemoryTable.lt_range roomy.globals.wellFormed roomy.locals.wellFormed inUse
      record := MemoryTable.lookup_isSome roomy.globals.wellFormed roomy.locals.wellFormed inUse
      addedMin := ?_
      addedMax := ((below.slot_lt inUse).trans_le roomy.range).le
      memslots := slotToRegion.trans_le enough.prefixed.longer
      slotToRegion := slotToRegion
      verbs := ?_ }
  · rw [roomy.consistent.fromZero]
    exact Nat.zero_le _
  · intro attached
    exact MemoryTable.lookup_isSome roomy.verbsGlobals.wellFormed roomy.verbsLocals.wellFormed
      (roomy.consistent.matched.mapsTo ⟨inUse, attached⟩)

/-- All room is kept when no table gets another size and only slots below the bounds are dealt. -/
theorem of_same (enough : limited.Enough) {after : SortedQueue n}
    (roomy : after.queue.memreg.Roomy after.queue.ibverbs)
    (capacity : after.queue.memreg.capacity = limited.state.queue.memreg.capacity)
    (dealt : ∀ bound, limited.limit ≤ bound →
      MemoryTable.Dealt limited.state.queue.memreg.memreg bound →
        MemoryTable.Dealt after.queue.memreg.memreg bound)
    (prefixed : after.msgsort.Prefixed)
    (memslots : after.msgsort.memslots.length = limited.state.msgsort.memslots.length)
    (slotToRegion : after.msgsort.slotToRegion.length =
      limited.state.msgsort.slotToRegion.length) :
    Enough ⟨after, limited.limit⟩ := by
  rcases enough.dealt with ⟨bound, below, atMost, fits⟩
  refine ⟨roomy, ?_, ⟨bound, dealt bound atMost below, atMost, ?_⟩, prefixed, ?_⟩
  · rw [capacity]
    exact enough.below
  · rw [slotToRegion]
    exact fits
  · rw [memslots, capacity]
    exact enough.memslots

theorem slotToRegion_lt (enough : limited.Enough) {memreg : MemoryTable}
    (dealt : ∀ bound, limited.limit ≤ bound →
      MemoryTable.Dealt limited.state.queue.memreg.memreg bound →
        MemoryTable.Dealt memreg.memreg bound)
    (inUse : MemoryTable.InUse memreg.memreg slot) :
    slot < limited.state.msgsort.slotToRegion.length := by
  rcases enough.dealt with ⟨bound, below, atMost, fits⟩
  exact Nat.lt_of_lt_of_le ((dealt bound atMost below).slot_lt inUse) fits

theorem addLocalReg (enough : limited.Enough) (pid : Fin n) {mem size : ℕ}
    (permitted : limited.Permitted (.addLocalReg mem size)) :
    ∃ after result, limited.state.addLocalReg pid mem size = some (after, result) ∧
      Enough ⟨after, limited.limit⟩ ∧
      ∀ slot, result = .ok slot → MemoryTable.InUse after.queue.memreg.memreg slot := by
  have below := enough.below
  have room := permitted.1
  rw [liveCount] at room
  rcases Option.isSome_iff_exists.mp (enough.roomy.addLocal_isSome (by omega) pid mem size) with
    ⟨⟨⟨memreg, ibverbs⟩, result⟩, registers⟩
  rcases enough.roomy.addLocal (by omega) registers with ⟨roomy, capacity, dealtAfter, inUse⟩
  have dealt : ∀ bound, limited.limit ≤ bound →
      MemoryTable.Dealt limited.state.queue.memreg.memreg bound →
        MemoryTable.Dealt memreg.memreg bound := by
    intro bound atMost dealt
    exact dealtAfter bound dealt (by omega)
  simp only [SortedQueue.addLocalReg, registers]
  cases result with
  | error exn =>
      refine ⟨_, _, rfl, enough.of_same roomy capacity dealt enough.prefixed rfl rfl, ?_⟩
      intro slot impossible
      cases impossible
  | ok slot =>
      have inUse := inUse slot rfl
      have itsSlot : ∀ other, (.ok slot : Except Exn ℕ) = .ok other →
          MemoryTable.InUse memreg.memreg other := by
        intro other same
        cases same
        exact inUse
      simp only
      split
      next nonempty =>
        rcases enough.prefixed.addRegister (enough.slotToRegion_lt dealt inUse) nonempty
          permitted.2 with ⟨msgsort, adds, prefixed, memslots, slotToRegion⟩
        rw [adds]
        exact ⟨_, _, rfl, enough.of_same roomy capacity dealt prefixed memslots slotToRegion,
          itsSlot⟩
      next =>
        exact ⟨_, _, rfl, enough.of_same roomy capacity dealt enough.prefixed rfl rfl, itsSlot⟩

theorem addGlobalReg (enough : limited.Enough) {mem size : ℕ}
    (permitted : limited.Permitted (.addGlobalReg mem size)) :
    ∃ after slot, limited.state.addGlobalReg mem size = some (after, slot) ∧
      Enough ⟨after, limited.limit⟩ ∧ MemoryTable.InUse after.queue.memreg.memreg slot := by
  have below := enough.below
  have room := permitted.1
  rw [liveCount] at room
  rcases Option.isSome_iff_exists.mp (enough.roomy.addGlobal_isSome (by omega) mem size) with
    ⟨⟨memreg, slot⟩, registers⟩
  rcases enough.roomy.addGlobal (by omega) registers with ⟨roomy, capacity, dealtAfter, inUse⟩
  have dealt : ∀ bound, limited.limit ≤ bound →
      MemoryTable.Dealt limited.state.queue.memreg.memreg bound →
        MemoryTable.Dealt memreg.memreg bound := by
    intro bound atMost dealt
    exact dealtAfter bound dealt (by omega)
  simp only [SortedQueue.addGlobalReg, registers]
  split
  next nonempty =>
    rcases enough.prefixed.addRegister (enough.slotToRegion_lt dealt inUse) nonempty
      permitted.2 with ⟨msgsort, adds, prefixed, memslots, slotToRegion⟩
    rw [adds]
    exact ⟨_, _, rfl, enough.of_same roomy capacity dealt prefixed memslots slotToRegion, inUse⟩
  next => exact ⟨_, _, rfl, enough.of_same roomy capacity dealt enough.prefixed rfl rfl, inUse⟩

theorem removeReg (enough : limited.Enough) (permitted : limited.Permitted (.removeReg slot)) :
    ∃ after, limited.state.removeReg slot = some after ∧ Enough ⟨after, limited.limit⟩ := by
  have inRange := enough.inRange permitted
  rcases Option.isSome_iff_exists.mp inRange.record with ⟨memory, found⟩
  rcases Option.isSome_iff_exists.mp (enough.roomy.remove_isSome permitted) with
    ⟨⟨memreg, ibverbs⟩, removes⟩
  rcases enough.roomy.remove permitted removes with ⟨roomy, capacity, dealtAfter⟩
  have dealt : ∀ bound, limited.limit ≤ bound →
      MemoryTable.Dealt limited.state.queue.memreg.memreg bound →
        MemoryTable.Dealt memreg.memreg bound := fun bound _ dealt => dealtAfter bound dealt
  simp only [SortedQueue.removeReg, found, removes, Option.map_some]
  by_cases nonempty : memory.size > 0
  · rcases enough.prefixed.delRegister inRange.slotToRegion with
      ⟨msgsort, deletes, prefixed, memslots, slotToRegion⟩
    rw [if_pos nonempty, deletes]
    exact ⟨_, rfl, enough.of_same roomy capacity dealt prefixed memslots slotToRegion⟩
  · rw [if_neg nonempty]
    exact ⟨_, rfl, enough.of_same roomy capacity dealt enough.prefixed rfl rfl⟩

theorem resizeMesgQueue (enough : limited.Enough) (nMsgs : ℕ) :
    Enough ⟨(limited.state.resizeMesgQueue nMsgs).1, limited.limit⟩ := by
  rcases limited.state.resizeMesgQueue_keeps nMsgs with ⟨sameSort, sameMemreg, sameVerbs, _⟩
  apply enough.of_same
  · rw [sameMemreg]
    exact enough.roomy.of_memreg sameVerbs
  · rw [sameMemreg]
  · intro bound _ dealt
    rw [sameMemreg]
    exact dealt
  · rw [sameSort]
    exact enough.prefixed
  · rw [sameSort]
  · rw [sameSort]

/-- After slots were reserved without an exception, the message sort has been given room for them
unless the memory table had room before. -/
theorem reserveMemreg (enough : limited.Enough) (faults : Faults) (nRegs : ℕ) :
    Enough ⟨(limited.state.reserveMemreg faults (nRegs + 1)).1, limited.limit⟩ ∧
      ((limited.state.reserveMemreg faults (nRegs + 1)).2 = none →
        nRegs < (limited.state.reserveMemreg faults (nRegs + 1)).1.queue.memreg.capacity ∧
        (2 * nRegs ≤
            (limited.state.reserveMemreg faults (nRegs + 1)).1.msgsort.slotToRegion.length ∨
          nRegs + 1 ≤ limited.state.queue.memreg.capacity ∧
            (limited.state.reserveMemreg faults (nRegs + 1)).1 = limited.state)) := by
  rcases enough.dealt with ⟨bound, dealt, atMost, fits⟩
  have below := enough.below
  have memslots := enough.memslots
  by_cases grows : limited.state.queue.memreg.capacity < nRegs + 1
  · have reserved := enough.roomy.reserve grows faults.memreg
    simp only [SortedQueue.reserveMemreg, if_pos grows]
    generalize limited.state.queue.memreg.reserve faults.memreg limited.state.queue.ibverbs
      (nRegs + 1) = outcome at reserved
    rcases outcome with ⟨⟨memreg, ibverbs⟩, thrown⟩
    rcases reserved with ⟨roomy, dealtAfter, kept, raised⟩
    cases thrown with
    | some exn =>
        refine ⟨enough.of_same roomy (kept (by simp)) (fun bound _ dealt => dealtAfter bound dealt)
          enough.prefixed rfl rfl, ?_⟩
        intro impossible
        cases impossible
    | none =>
        rcases raised rfl with ⟨capacity, range⟩
        have range : memreg.range = 2 * (nRegs + 1) + 1 := range
        simp only at capacity
        simp only [range]
        rcases enough.prefixed.setSlotRange (show _ ≤ 2 * (nRegs + 1) + 1 by omega)
          faults.msgsort with ⟨prefixed, longer, keeps, full⟩
        refine ⟨⟨roomy, ?_, ⟨bound, dealtAfter bound dealt, atMost, ?_⟩, prefixed, ?_⟩, ?_⟩
        · show limited.limit < memreg.capacity
          omega
        · exact Nat.le_trans fits keeps
        · show _ ≤ 2 * memreg.capacity + 1
          rw [capacity]
          exact longer
        · intro granted
          refine ⟨by rw [capacity]; exact Nat.lt_succ_self _, Or.inl ?_⟩
          rw [full granted]
          omega
  · rw [reserveMemreg_enough faults (Nat.not_lt.mp grows)]
    exact ⟨enough, fun _ => ⟨Nat.not_lt.mp grows, Or.inr ⟨Nat.not_lt.mp grows, rfl⟩⟩⟩

theorem raise (enough : limited.Enough) {nRegs : ℕ}
    (below : nRegs < limited.state.queue.memreg.capacity)
    (fits : 2 * nRegs ≤ limited.state.msgsort.slotToRegion.length) :
    Enough ⟨limited.state, nRegs⟩ := by
  rcases enough.dealt with ⟨bound, dealt, _, boundFits⟩
  refine ⟨enough.roomy, below, ⟨max bound nRegs, ⟨?_, ?_⟩, Nat.le_max_right _ _, ?_⟩,
    enough.prefixed, enough.memslots⟩
  · exact Nat.le_trans dealt.globals (Nat.le_max_left _ _)
  · exact Nat.le_trans dealt.locals (Nat.le_max_left _ _)
  · show 2 * max bound nRegs ≤ limited.state.msgsort.slotToRegion.length
    omega

/-- A resize that succeeds has room for all the slots that it was asked for. -/
theorem resizeMemreg (enough : limited.Enough) (faults : Faults) {nRegs : ℕ}
    (covered : limited.Covered (.resize false (.memreg faults nRegs))) :
    Enough ⟨(limited.state.resizeMemreg faults nRegs).1, limited.limit⟩ ∧
      ((limited.state.resizeMemreg faults nRegs).2 = some .success →
        nRegs < (limited.state.resizeMemreg faults nRegs).1.queue.memreg.capacity ∧
        2 * nRegs ≤ (limited.state.resizeMemreg faults nRegs).1.msgsort.slotToRegion.length) := by
  simp only [SortedQueue.resizeMemreg]
  split
  next => exact ⟨enough, fun impossible => by cases impossible⟩
  next =>
    rcases enough.reserveMemreg faults nRegs with ⟨reserved, fits⟩
    generalize limited.state.reserveMemreg faults (nRegs + 1) = outcome at reserved fits
    rcases outcome with ⟨middle, _ | exn⟩
    · rcases fits rfl with ⟨below, room⟩
      have covered : middle.queue.ibverbs.QpsGranted →
          2 * nRegs ≤ middle.msgsort.slotToRegion.length := by
        intro qps
        rcases room with room | ⟨before, same⟩
        · exact room
        · simp only at same
          rw [same] at qps ⊢
          exact covered before qps
      have resized := reserved.resizeMesgQueue middle.queue.maxNMsgs
      rcases middle.resizeMesgQueue_keeps middle.queue.maxNMsgs with
        ⟨sameSort, sameMemreg, _, granted⟩
      simp only at below resized ⊢
      rw [← sameSort] at covered
      rw [← sameMemreg] at below
      generalize middle.resizeMesgQueue middle.queue.maxNMsgs = outcome
        at resized granted covered below
      rcases outcome with ⟨after, _ | _ | _ | _⟩
      · exact ⟨resized, fun impossible => by cases impossible⟩
      · refine ⟨?_, fun _ => ⟨below, covered (granted rfl)⟩⟩
        exact resized.of_same resized.roomy rfl (fun _ _ dealt => dealt) resized.prefixed rfl rfl
      · exact ⟨resized, fun impossible => by cases impossible⟩
      · exact ⟨resized, fun impossible => by cases impossible⟩
    · refine ⟨reserved, ?_⟩
      intro impossible
      cases exn <;> cases impossible

theorem lpfResize (enough : limited.Enough) (aborted : Bool) (call : Resize)
    (covered : limited.Covered (.resize aborted call)) :
    Enough ⟨(limited.state.lpfResize aborted call).1, limited.note (.resize aborted call)⟩ := by
  cases aborted with
  | true => exact enough
  | false =>
      cases call with
      | mesgQueue nMsgs => exact enough.resizeMesgQueue nMsgs
      | memreg faults nRegs =>
          rcases enough.resizeMemreg faults covered with ⟨resized, room⟩
          simp only [note]
          split
          next success => exact resized.raise (room success).1 (room success).2
          next => exact resized

/-- Refusals that are reported come from the registration of the pending slots, two collectives
for each of them. -/
theorem refusedAtOnce (enough : limited.Enough) {pending rest : List (machine n).Answer}
    {memreg : MemoryTable} {ibverbs : IBVerbs n} {thrown : Option Exn}
    (follows : Follows (limited.state.queue.memreg.sync limited.state.queue.ibverbs) pending
      ((memreg, ibverbs), thrown))
    (atOnce : ∀ answer ∈ ((pending ++ rest).take
      (2 * limited.state.queue.memreg.added.elements.length)).tail,
      MemoryTable.reports answer = false) :
    ∀ answer ∈ pending.tail, MemoryTable.reports answer = false := by
  intro answer member
  rcases MemoryTable.sync_follows enough.roomy.consistent follows with ⟨_, quiet⟩ |
    ⟨registered, remaining, front, last, split, _, _, some, ended, count, _⟩
  · exact quiet answer (List.mem_of_mem_tail member)
  · have short : pending.length ≤ 2 * limited.state.queue.memreg.added.elements.length := by
      have := List.length_pos_of_ne_nil some
      rw [split, ended, List.length_append, List.length_append, List.length_singleton, count]
      omega
    apply atOnce
    rw [List.take_append, List.take_of_length_le short]
    rcases pending with _ | ⟨first, others⟩
    · cases member
    · exact List.mem_append_left _ member

theorem step {before after : Limited n} {call : Call n} (enough : before.Enough)
    (permitted : before.Permitted call) (covered : before.Covered call)
    (step : before.Step pid call after) : after.Enough := by
  rcases after with ⟨after, limit⟩
  rcases step with ⟨taken, same⟩
  simp only at taken same
  subst same
  cases call with
  | resize aborted call =>
      rw [← show _ = after from taken]
      exact enough.lpfResize aborted call covered
  | addLocalReg mem size =>
      rcases taken with ⟨result, adds⟩
      rcases enough.addLocalReg pid permitted with ⟨_, _, again, enoughAfter, _⟩
      rw [adds] at again
      cases again
      exact enoughAfter
  | addGlobalReg mem size =>
      rcases taken with ⟨slot, adds⟩
      rcases enough.addGlobalReg permitted with ⟨_, _, again, enoughAfter, _⟩
      rw [adds] at again
      cases again
      exact enoughAfter
  | removeReg slot =>
      rcases enough.removeReg permitted with ⟨_, again, enoughAfter⟩
      rw [show before.state.removeReg slot = some after from taken] at again
      cases again
      exact enoughAfter
  | sync task abort attr answers =>
      rcases taken with ⟨sameSort, result, follows⟩
      rcases sync_cases follows with
        ⟨pending, rest, thrown, ibverbs, rfl, registering, _, framed⟩
      rcases enough.roomy.sync pid registering (enough.refusedAtOnce registering covered) with
        ⟨roomy, capacity, dealt⟩
      apply enough.of_same (roomy.of_memreg framed.sameMemreg) capacity
        fun bound _ below => dealt bound below
      · rw [sameSort]
        exact enough.prefixed
      · rw [sameSort]
      · rw [sameSort]
  | progress =>
      rcases taken with ⟨ibverbs, progress, rfl⟩
      exact enough.of_same (enough.roomy.of_memreg progress.framed.sameMemreg) rfl
        (fun _ _ dealt => dealt) enough.prefixed rfl rfl

theorem capacitiesAgree (enough : limited.Enough) (pid : Fin n) : limited.CapacitiesAgree pid where
  slots slot inUse := enough.inRange inUse
  addLocalReg mem size permitted := by
    rcases enough.addLocalReg pid permitted with ⟨after, result, adds, enoughAfter, inUse⟩
    exact ⟨after, result, adds, fun slot isOk => enoughAfter.inRange (inUse slot isOk)⟩
  addGlobalReg mem size permitted := by
    rcases enough.addGlobalReg permitted with ⟨after, slot, adds, enoughAfter, inUse⟩
    exact ⟨after, slot, adds, enoughAfter.inRange inUse⟩
  removeReg slot permitted := by
    rcases enough.removeReg permitted with ⟨after, removes, _⟩
    rw [removes]
    rfl
  sync := enough.roomy.sync_safe

end Enough

theorem enough_initial {device : Device n} (constructs : Constructs device)
    (msgGrainPower : ℕ) : (initial device msgGrainPower).Enough := by
  rcases MemoryTable.Roomy.initial constructs with ⟨roomy, dealt⟩
  have capacity : (initial device msgGrainPower).state.queue.memreg.capacity = 1 :=
    congrArg Rooms.capacity (MemoryTable.rooms_initial constructs)
  refine ⟨roomy, ?_, ⟨0, dealt, Nat.le_refl 0, Nat.zero_le _⟩,
    MessageSort.prefixed_initial msgGrainPower, Nat.zero_le _⟩
  rw [capacity]
  exact Nat.one_pos

/-- Whatever fails in a run, all slots are valid indices of all tables if resizes that need not
grow the memory table find the message sort large enough, and syncs throw at their first pending
slot only. -/
theorem capacities_agree {pid : Fin n} {device : Device n} {msgGrainPower : ℕ}
    (constructs : Constructs device) {limited : Limited n}
    (run : Transition.Reachable (Step pid)
      (fun limited call => limited.Permitted call ∧ limited.Covered call)
      (initial device msgGrainPower) limited) :
    limited.CapacitiesAgree pid := by
  have enough := run.invariant (enough_initial constructs msgGrainPower)
    fun _ _ _ enough permitted step => enough.step permitted.1 permitted.2 step
  exact enough.capacitiesAgree pid

/-- Resize the memory register for one registration. -/
def resizeOne (faults : MessageSort.SlotRangeFaults) (limited : Limited 1) : Limited 1 :=
  let call : Call 1 := .resize false (.memreg ⟨.none, faults⟩ 1)
  ⟨(limited.state.lpfResize false (.memreg ⟨.none, faults⟩ 1)).1, limited.note call⟩

theorem reachable_resizeOne {rule : Limited 1 → Call 1 → Prop} {start limited : Limited 1}
    (run : Transition.Reachable (Step 0) rule start limited)
    (faults : MessageSort.SlotRangeFaults)
    (allowed : rule limited (.resize false (.memreg ⟨.none, faults⟩ 1))) :
    Transition.Reachable (Step 0) rule start (limited.resizeOne faults) :=
  run.tail allowed ⟨rfl, rfl⟩

theorem capacities_agree_one :
    CapacitiesAgree 0 ((initial (.generous 1) 4).resizeOne .none) := by
  have constructs : Constructs (.generous 1) := rfl
  apply capacities_agree constructs (reachable_resizeOne .refl .none ⟨trivial, ?_⟩)
  intro enough
  exact absurd enough (by decide)

/-- The message sort cannot grow in a resize, and the next one does not grow it. -/
def skipped : Limited 1 :=
  ((initial (.generous 1) 4).resizeOne ⟨some .badAlloc, none, none⟩).resizeOne .none

/-- After the second resize has succeeded, the first registration exceeds the tables of the message
sort. -/
theorem skipped_disagrees : Constructs (.generous 1) ∧
    ¬∀ limited, Transition.Reachable (Step 0) Permitted (initial (.generous 1) 4) limited →
      limited.CapacitiesAgree 0 := by
  refine ⟨rfl, fun agree => ?_⟩
  have run : Transition.Reachable (Step 0) Permitted (initial (.generous 1) 4) skipped :=
    reachable_resizeOne (reachable_resizeOne .refl _ trivial) _ trivial
  have limit : skipped.limit = 1 := rfl
  have permitted : skipped.Permitted (.addLocalReg 100 8) :=
    ⟨by rw [limit]; exact Nat.le_refl 1, by decide⟩
  rcases (agree skipped run).addLocalReg 100 8 permitted with ⟨_, _, adds, _⟩
  have fails : skipped.state.addLocalReg 0 100 8 = none := rfl
  rw [fails] at adds
  cases adds

end Limited

end SortedQueue

end Talpf
