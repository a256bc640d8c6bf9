import Talpf.Library.Transition
import Talpf.MemoryRegister
import Mathlib.Data.Finset.Card
import Mathlib.Data.Finset.Dedup

/-!
# Runs of a memory register

Over any history of calls, copies included, a register represents the partial
map of the records that were stored last, and the slots that it deals do not
depend on the sizes that were reserved in between.
-/

namespace Talpf

namespace SlotDealer

/-- The slots that a dealer deals on some requests: `none` asks for a slot, and the others give
one back. -/
def answers (dealer : SlotDealer) : List (Option ℕ) → List ℕ
  | [] => []
  | none :: requests => dealer.deal.1 :: answers dealer.deal.2 requests
  | some slot :: requests => answers (dealer.recycle slot) requests

/-- The live slots. -/
def live (dealer : SlotDealer) : Finset ℕ :=
  {slot ∈ Finset.range dealer.minNewSlotNr | slot ∉ dealer.free}

@[simp]
theorem mem_live {dealer : SlotDealer} {slot : ℕ} : slot ∈ dealer.live ↔ dealer.Live slot := by
  simp [live, Live]

/-- The live slots and the recycled ones make up all slots that were ever dealt. -/
theorem WellFormed.live_union_free {dealer : SlotDealer} (wellFormed : dealer.WellFormed) :
    dealer.live ∪ dealer.free.toFinset = Finset.range dealer.minNewSlotNr := by
  ext slot
  rw [Finset.mem_union, mem_live, List.mem_toFinset, Finset.mem_range]
  constructor
  · rintro (isLive | recycled)
    · exact isLive.1
    · exact wellFormed.bounded slot recycled
  · intro dealt
    by_cases recycled : slot ∈ dealer.free
    · exact Or.inr recycled
    · exact Or.inl ⟨dealt, recycled⟩

theorem disjoint_live_free (dealer : SlotDealer) : Disjoint dealer.live dealer.free.toFinset := by
  rw [Finset.disjoint_left]
  intro slot isLive recycled
  exact (mem_live.mp isLive).2 (List.mem_toFinset.mp recycled)

theorem WellFormed.card_live {dealer : SlotDealer} (wellFormed : dealer.WellFormed) :
    dealer.live.card = dealer.liveCount := by
  have total := congrArg Finset.card wellFormed.live_union_free
  rw [Finset.card_union_of_disjoint dealer.disjoint_live_free, Finset.card_range,
    List.toFinset_card_of_nodup wellFormed.nodup] at total
  simp only [liveCount]
  omega

end SlotDealer

namespace MemoryRegister

variable {Record Other : Type}

/-- The copy that the copy constructor makes, unless it runs out of memory. -/
def copy (fails : Bool) (register : MemoryRegister Record) :
    Except Exn (MemoryRegister Record) :=
  if fails then .error .badAlloc
  else .ok { register with freeCapacity := max register.free.length register.freeCapacity }

/-- Assign a copy; a copy that throws leaves the target as it was. -/
def assign (target : MemoryRegister Record) :
    Except Exn (MemoryRegister Record) → MemoryRegister Record
  | .ok copied => copied
  | .error _ => target

/-- The calls that change a register. -/
inductive Call (Record : Type) where
  | add (record : Record)
  | remove (slot : ℕ)
  | update (slot : ℕ) (change : Record → Record)
  | reserve (faults : ReserveFaults) (defaultRecord : Record) (newSize : ℕ)
  /-- Go on with a copy. -/
  | copy (fails : Bool)

/-- The register after a call and the slot that it dealt.  `none` is a failed assertion. -/
def perform (register : MemoryRegister Record) :
    Call Record → Option (MemoryRegister Record × Option ℕ)
  | .add record => (register.add record).map fun (slot, after) => (after, some slot)
  | .remove slot => (register.remove slot).map fun after => (after, none)
  | .update slot change =>
      if slot < register.slots.length then some (register.update slot change, none) else none
  | .reserve faults defaultRecord newSize =>
      some ((register.reserve faults defaultRecord newSize).1, none)
  | .copy fails => some (register.assign (register.copy fails), none)

theorem dealer_assign_copy (register : MemoryRegister Record) (fails : Bool) :
    (register.assign (register.copy fails)).dealer = register.dealer := by
  cases fails <;> rfl

theorem lookup_assign_copy (register : MemoryRegister Record) (fails : Bool) (slot : ℕ) :
    (register.assign (register.copy fails)).lookup slot = register.lookup slot := by
  cases fails <;> rfl

theorem WellFormed.assign_copy {register : MemoryRegister Record}
    (wellFormed : register.WellFormed) (fails : Bool) :
    (register.assign (register.copy fails)).WellFormed := by
  refine ⟨dealer_assign_copy register fails ▸ wellFormed.dealer, ?_, ?_⟩
  · cases fails <;> exact wellFormed.minNewSlotNrLe
  · have := wellFormed.slotsLe
    cases fails
    · exact Nat.le_trans this (Nat.le_max_right _ _)
    · exact this

/-- What a call asks of the slots: to deal one, or to give one back. -/
def Call.request : Call Record → Option (Option ℕ)
  | .add _ => some none
  | .remove slot => some (some slot)
  | .update _ _ | .reserve _ _ _ | .copy _ => none

/-- The calls to `add` and `remove` among some calls. -/
def requests (calls : List (Call Record)) : List (Option ℕ) := calls.filterMap Call.request

/-- Perform calls one after the other and list the slots that `add` returns. -/
def performAll (register : MemoryRegister Record) :
    List (Call Record) → Option (MemoryRegister Record × List ℕ)
  | [] => some (register, [])
  | call :: calls =>
      (register.perform call).bind fun (after, dealt) =>
        (after.performAll calls).map fun (last, slots) => (last, dealt.toList ++ slots)

/-- A call moves the dealer as its request says, if it has one. -/
theorem perform_dealer {register after : MemoryRegister Record} {call : Call Record}
    {dealt : Option ℕ} (performed : register.perform call = some (after, dealt)) :
    match call.request with
    | none => dealt = none ∧ after.dealer = register.dealer
    | some none => dealt = some register.dealer.deal.1 ∧ after.dealer = register.dealer.deal.2
    | some (some slot) => dealt = none ∧ after.dealer = register.dealer.recycle slot := by
  cases call with
  | add record =>
      rcases Option.map_eq_some_iff.mp performed with ⟨⟨slot, added⟩, adds, result⟩
      rw [Prod.mk.injEq] at result
      rcases result with ⟨rfl, rfl⟩
      rcases add_cases adds with ⟨rfl, moved, _⟩
      exact ⟨rfl, moved⟩
  | remove slot =>
      rcases Option.map_eq_some_iff.mp performed with ⟨removed, removes, result⟩
      rw [Prod.mk.injEq] at result
      rcases result with ⟨rfl, rfl⟩
      exact ⟨rfl, (remove_cases removes).1⟩
  | update slot change =>
      simp only [perform] at performed
      split at performed
      next =>
        rw [Option.some.injEq, Prod.mk.injEq] at performed
        rcases performed with ⟨rfl, rfl⟩
        exact ⟨rfl, dealer_update register slot change⟩
      next => cases performed
  | reserve faults defaultRecord newSize =>
      simp only [perform, Option.some.injEq, Prod.mk.injEq] at performed
      rcases performed with ⟨rfl, rfl⟩
      exact ⟨rfl, dealer_reserve faults defaultRecord register newSize⟩
  | copy fails =>
      simp only [perform, Option.some.injEq, Prod.mk.injEq] at performed
      rcases performed with ⟨rfl, rfl⟩
      exact ⟨rfl, dealer_assign_copy register fails⟩

/-- The slots that a register deals are those that its dealer deals on the requests alone. -/
theorem performAll_slots {register last : MemoryRegister Record} {calls : List (Call Record)}
    {slots : List ℕ} (performed : register.performAll calls = some (last, slots)) :
    slots = SlotDealer.answers register.dealer (requests calls) := by
  induction calls generalizing register slots with
  | nil =>
      simp only [performAll, Option.some.injEq, Prod.mk.injEq] at performed
      rw [← performed.2]
      rfl
  | cons call calls ih =>
      rcases Option.bind_eq_some_iff.mp performed with ⟨⟨after, dealt⟩, first, rest⟩
      rcases Option.map_eq_some_iff.mp rest with ⟨⟨final, later⟩, remaining, result⟩
      rw [Prod.mk.injEq] at result
      rcases result with ⟨rfl, rfl⟩
      have moved := perform_dealer first
      rw [ih remaining]
      simp only [requests, List.filterMap_cons]
      generalize call.request = request at moved
      rcases request with _ | _ | slot
      · rcases moved with ⟨rfl, same⟩
        rw [same]
        rfl
      · rcases moved with ⟨rfl, dealtFrom⟩
        rw [dealtFrom]
        rfl
      · rcases moved with ⟨rfl, recycled⟩
        rw [recycled]
        rfl

/-- Two registers that start empty and see the same calls to `add` and `remove` deal the same
slots, whatever sizes are reserved in between and whatever the records are. -/
theorem slots_independent_of_reserves {left : MemoryRegister Record}
    {right : MemoryRegister Other} {leftCalls : List (Call Record)}
    {rightCalls : List (Call Other)} {leftSlots rightSlots : List ℕ}
    (leftRun : (empty : MemoryRegister Record).performAll leftCalls = some (left, leftSlots))
    (rightRun : (empty : MemoryRegister Other).performAll rightCalls = some (right, rightSlots))
    (sameRequests : requests leftCalls = requests rightCalls) : leftSlots = rightSlots := by
  rw [performAll_slots leftRun, performAll_slots rightRun, sameRequests]
  rfl

def leftCalls : List (Call ℕ) :=
  [.reserve .none 0 2, .add 7, .add 8, .remove 0, .reserve .none 0 1, .add 9]

def rightCalls : List (Call Unit) :=
  [.reserve .none () 1, .add (), .reserve .none () 5, .add (), .remove 0, .add ()]

theorem slots_independent_of_reserves_instance :
    ∃ left leftSlots right rightSlots,
      empty.performAll leftCalls = some (left, leftSlots) ∧
      empty.performAll rightCalls = some (right, rightSlots) ∧ leftSlots = rightSlots := by
  have leftRun : empty.performAll leftCalls = some (⟨[9, 8], [], 2, 2⟩, [0, 1, 0]) := rfl
  have rightRun : empty.performAll rightCalls =
      some (⟨[(), (), (), (), ()], [], 5, 2⟩, [0, 1, 0]) := rfl
  exact ⟨_, _, _, _, leftRun, rightRun, slots_independent_of_reserves leftRun rightRun rfl⟩

/-- A register together with the records that were stored last. -/
structure Recorded (Record : Type) where
  register : MemoryRegister Record
  stored : ℕ → Option Record

namespace Recorded

def initial : Recorded Record := ⟨.empty, fun _ => none⟩

/-- What a call means for the partial map. -/
def note (stored : ℕ → Option Record) (dealt : Option ℕ) : Call Record → ℕ → Option Record
  | .add record =>
      match dealt with
      | some slot => Function.update stored slot (some record)
      | none => stored
  | .remove slot => Function.update stored slot none
  | .update slot change => Function.update stored slot ((stored slot).map change)
  | .reserve _ _ _ | .copy _ => stored

/-- The register performs a call, and the partial map follows. -/
def Step (before : Recorded Record) (call : Call Record) (after : Recorded Record) : Prop :=
  ∃ dealt, before.register.perform call = some (after.register, dealt) ∧
    after.stored = note before.stored dealt call

/-- Records are added where there is room, and only live slots are removed or updated. -/
def Permitted (state : Recorded Record) : Call Record → Prop
  | .add _ => state.register.dealer.live.card < state.register.capacity
  | .remove slot | .update slot _ => (state.stored slot).isSome
  | .reserve _ _ _ | .copy _ => True

instance (state : Recorded Record) : DecidablePred state.Permitted
  | .add _ => inferInstanceAs (Decidable (_ < _))
  | .remove _ | .update _ _ => inferInstanceAs (Decidable (_ = true))
  | .reserve _ _ _ | .copy _ => inferInstanceAs (Decidable True)

/-- The live slots of a register hold the records of a partial map. -/
structure Represents (register : MemoryRegister Record) (stored : ℕ → Option Record) : Prop where
  wellFormed : register.WellFormed
  live_iff : ∀ slot, register.dealer.Live slot ↔ (stored slot).isSome
  lookup : ∀ slot record, stored slot = some record → register.lookup slot = some record

theorem represents_initial : Represents (empty : MemoryRegister Record) fun _ => none where
  wellFormed := wellFormed_empty
  live_iff slot := iff_of_false (SlotDealer.not_live_initial slot) (by simp)
  lookup _ _ absent := by cases absent

namespace Represents

variable {register : MemoryRegister Record} {stored : ℕ → Option Record}

/-- There is room for another record as long as not all slots are live. -/
theorem add (represents : Represents register stored)
    (room : register.dealer.live.card < register.capacity) (record : Record) :
    ∃ slot grown, register.add record = some (slot, grown) ∧
      stored slot = none ∧ slot < register.capacity ∧
      Represents grown (Function.update stored slot (some record)) := by
  have wellFormed := represents.wellFormed
  rw [wellFormed.dealer.card_live] at room
  have bound := wellFormed.deal_lt room
  have adds := add_eq register record bound
  refine ⟨_, _, adds, ?_, bound, wellFormed.add adds, ?_, ?_⟩
  · rw [← Option.not_isSome_iff_eq_none, ← represents.live_iff]
    exact SlotDealer.not_live_deal _
  · intro slot
    rw [(add_cases adds).2.1, wellFormed.dealer.live_deal, represents.live_iff,
      Function.update_apply]
    by_cases same : slot = register.dealer.deal.1 <;> simp [same]
  · intro slot other found
    rw [lookup_add adds]
    rw [Function.update_apply] at found
    by_cases same : slot = register.dealer.deal.1
    · rw [if_pos same] at found
      rw [if_pos same.symm, found]
    · rw [if_neg same] at found
      rw [if_neg (Ne.symm same)]
      exact represents.lookup slot other found

theorem remove (represents : Represents register stored) {slot : ℕ}
    (live : (stored slot).isSome) :
    ∃ shrunk, register.remove slot = some shrunk ∧
      Represents shrunk (Function.update stored slot none) := by
  have isLive := (represents.live_iff slot).mpr live
  rcases Option.isSome_iff_exists.mp (represents.wellFormed.remove_isSome isLive) with
    ⟨shrunk, removes⟩
  rcases remove_cases removes with ⟨recycled, sameSlots, _⟩
  refine ⟨shrunk, removes, represents.wellFormed.remove isLive removes, ?_, ?_⟩
  · intro other
    rw [recycled, SlotDealer.live_recycle _ isLive, represents.live_iff, Function.update_apply]
    by_cases same : other = slot <;> simp [same]
  · intro other record found
    rw [Function.update_apply] at found
    by_cases same : other = slot
    · rw [if_pos same] at found
      cases found
    · rw [if_neg same] at found
      rw [MemoryRegister.lookup, sameSlots]
      exact represents.lookup other record found

theorem update (represents : Represents register stored) (slot : ℕ) (change : Record → Record) :
    Represents (register.update slot change)
      (Function.update stored slot ((stored slot).map change)) := by
  refine ⟨represents.wellFormed.update slot change, ?_, ?_⟩
  · intro other
    rw [dealer_update, represents.live_iff, Function.update_apply]
    by_cases same : other = slot <;> simp [same]
  · intro other record found
    rw [lookup_update]
    rw [Function.update_apply] at found
    by_cases same : other = slot
    · rw [if_pos same, Option.map_eq_some_iff] at found
      rcases found with ⟨old, before, rfl⟩
      rw [if_pos same.symm, same, represents.lookup slot old before]
      rfl
    · rw [if_neg same] at found
      rw [if_neg (Ne.symm same)]
      exact represents.lookup other record found

/-- A call that moves neither the dealer nor the records of dealt slots changes no record. -/
theorem of_same (represents : Represents register stored) {after : MemoryRegister Record}
    (wellFormed : after.WellFormed) (sameDealer : after.dealer = register.dealer)
    (sameLookup : ∀ slot < register.minNewSlotNr, after.lookup slot = register.lookup slot) :
    Represents after stored := by
  refine ⟨wellFormed, ?_, ?_⟩
  · intro slot
    rw [sameDealer]
    exact represents.live_iff slot
  · intro slot record found
    have live := (represents.live_iff slot).mpr (Option.isSome_iff_exists.mpr ⟨record, found⟩)
    rw [sameLookup slot live.1]
    exact represents.lookup slot record found

end Represents

variable {state after : Recorded Record}

theorem represents_step (represents : Represents state.register state.stored)
    {call : Call Record} (permitted : state.Permitted call) (taken : state.Step call after) :
    Represents after.register after.stored := by
  rcases taken with ⟨dealt, performed, noted⟩
  rw [noted]
  cases call with
  | add record =>
      rcases represents.add permitted record with ⟨slot, grown, adds, _, _, kept⟩
      simp only [perform, adds, Option.map_some, Option.some.injEq, Prod.mk.injEq] at performed
      rw [← performed.1, ← performed.2]
      exact kept
  | remove slot =>
      rcases represents.remove permitted with ⟨shrunk, removes, kept⟩
      simp only [perform, removes, Option.map_some, Option.some.injEq, Prod.mk.injEq] at performed
      rw [← performed.1]
      exact kept
  | update slot change =>
      simp only [perform] at performed
      split at performed
      next =>
        rw [Option.some.injEq, Prod.mk.injEq] at performed
        rw [← performed.1]
        exact represents.update slot change
      next => cases performed
  | reserve faults defaultRecord newSize =>
      simp only [perform, Option.some.injEq, Prod.mk.injEq] at performed
      rw [← performed.1]
      apply represents.of_same (represents.wellFormed.reserve faults defaultRecord newSize)
        (dealer_reserve faults defaultRecord state.register newSize)
      intro slot dealtBefore
      exact represents.wellFormed.lookup_reserve faults defaultRecord newSize dealtBefore
  | copy fails =>
      simp only [perform, Option.some.injEq, Prod.mk.injEq] at performed
      rw [← performed.1]
      apply represents.of_same (represents.wellFormed.assign_copy fails)
        (dealer_assign_copy state.register fails)
      intro slot _
      exact lookup_assign_copy state.register fails slot

def Represented (state : Recorded Record) : Prop := Represents state.register state.stored

theorem represented_initial : Represented (initial : Recorded Record) := represents_initial

/-- All calls of a run leave a register that represents what was stored. -/
theorem represents_run
    (run : Transition.Reachable Step Permitted (initial : Recorded Record) state) :
    Represents state.register state.stored := by
  apply run.invariant represented_initial
  intro before call after represents permitted taken
  exact represents_step represents permitted taken

/-- What the register promises in a state. -/
structure RefinesPartialMap (state : Recorded Record) : Prop where
  /-- The live slots are the domain of the partial map. -/
  live : ∀ slot, slot ∈ state.register.dealer.live ↔ (state.stored slot).isSome
  lookup : ∀ slot record, state.stored slot = some record →
    state.register.lookup slot = some record
  /-- Adding succeeds where there is room, and touches no other record. -/
  add : state.register.dealer.live.card < state.register.capacity → ∀ record,
    ∃ slot grown, state.register.add record = some (slot, grown) ∧
      state.stored slot = none ∧ slot < state.register.capacity ∧
      grown.lookup slot = some record ∧
      grown.dealer.live = insert slot state.register.dealer.live ∧
      ∀ other old, state.stored other = some old → grown.lookup other = some old
  /-- Removing a live slot succeeds, and touches no other record. -/
  remove : ∀ slot, (state.stored slot).isSome →
    ∃ shrunk, state.register.remove slot = some shrunk ∧
      shrunk.dealer.live = state.register.dealer.live.erase slot ∧
      ∀ other old, other ≠ slot → state.stored other = some old →
        shrunk.lookup other = some old
  free_nodup : state.register.free.Nodup
  disjoint : Disjoint state.register.dealer.live state.register.free.toFinset
  partition : state.register.dealer.live ∪ state.register.free.toFinset =
    Finset.range state.register.minNewSlotNr
  /-- The records of all dealt slots have memory, so that adding stores in place. -/
  slots_allocated : state.register.minNewSlotNr ≤ state.register.slots.length
  /-- Each live slot has memory reserved on the stack, so that removing it stores in place. -/
  free_allocated : state.register.free.length ≤ state.register.freeCapacity ∧
    ∀ slot, (state.stored slot).isSome → state.register.free.length < state.register.freeCapacity
  reserve : ∀ faults defaultRecord newSize thrown,
    (state.register.reserve faults defaultRecord newSize).2 = some thrown →
      (state.register.reserve faults defaultRecord newSize).1.capacity = state.register.capacity ∧
      (state.register.reserve faults defaultRecord newSize).1.slots = state.register.slots ∧
      (state.register.reserve faults defaultRecord newSize).1.free = state.register.free ∧
      (state.register.reserve faults defaultRecord newSize).1.minNewSlotNr =
        state.register.minNewSlotNr

/-- The records of other slots survive an update of the partial map. -/
theorem lookup_of_update {register : MemoryRegister Record} {stored : ℕ → Option Record}
    {slot other : ℕ} {entry : Option Record} {old : Record}
    (represents : Represents register (Function.update stored slot entry))
    (differ : other ≠ slot) (found : stored other = some old) :
    register.lookup other = some old := by
  apply represents.lookup
  rw [Function.update_of_ne differ]
  exact found

/-- A reservation that throws leaves all that the register stores. -/
theorem reserve_throws (faults : ReserveFaults) (defaultRecord : Record)
    (register : MemoryRegister Record) (newSize : ℕ) {thrown : Exn}
    (throws : (register.reserve faults defaultRecord newSize).2 = some thrown) :
    (register.reserve faults defaultRecord newSize).1.slots = register.slots := by
  revert throws
  simp only [MemoryRegister.reserve]
  split_ifs <;> intro throws
  · rfl
  · rfl
  · rfl
  · cases throws
  · cases throws
  · cases throws

/-- A memory register refines a partial map from slots to records. -/
theorem refines_partialMap
    (run : Transition.Reachable Step Permitted (initial : Recorded Record) state) :
    state.RefinesPartialMap := by
  have represents := represents_run run
  have wellFormed := represents.wellFormed
  refine
    { live := ?_
      lookup := represents.lookup
      add := ?_
      remove := ?_
      free_nodup := wellFormed.dealer.nodup
      disjoint := SlotDealer.disjoint_live_free _
      partition := wellFormed.dealer.live_union_free
      slots_allocated := wellFormed.minNewSlotNrLe
      free_allocated := ⟨?_, ?_⟩
      reserve := ?_ }
  · intro slot
    rw [SlotDealer.mem_live, represents.live_iff]
  · intro room record
    rcases represents.add room record with ⟨slot, grown, adds, absent, bound, kept⟩
    refine ⟨slot, grown, adds, absent, bound, ?_, ?_, ?_⟩
    · rw [lookup_add adds, if_pos rfl]
    · ext other
      rw [SlotDealer.mem_live, kept.live_iff, Finset.mem_insert, SlotDealer.mem_live,
        represents.live_iff, Function.update_apply]
      by_cases same : other = slot <;> simp [same]
    · intro other old found
      apply lookup_of_update kept _ found
      rintro rfl
      rw [absent] at found
      cases found
  · intro slot live
    rcases represents.remove live with ⟨shrunk, removes, kept⟩
    refine ⟨shrunk, removes, ?_, ?_⟩
    · ext other
      rw [SlotDealer.mem_live, kept.live_iff, Finset.mem_erase, SlotDealer.mem_live,
        represents.live_iff, Function.update_apply]
      by_cases same : other = slot <;> simp [same]
    · intro other old differ found
      exact lookup_of_update kept differ found
  · have := wellFormed.dealer.length_free_le
    have := wellFormed.minNewSlotNrLe
    have := wellFormed.slotsLe
    simp only [MemoryRegister.dealer] at *
    omega
  · intro slot live
    have := wellFormed.dealer.length_free_lt ((represents.live_iff slot).mpr live)
    have := wellFormed.minNewSlotNrLe
    have := wellFormed.slotsLe
    simp only [MemoryRegister.dealer] at *
    omega
  · intro faults defaultRecord newSize thrown throws
    have sameSlots := reserve_throws faults defaultRecord state.register newSize throws
    have sameDealer := dealer_reserve faults defaultRecord state.register newSize
    exact ⟨congrArg List.length sameSlots, sameSlots, congrArg SlotDealer.free sameDealer,
      congrArg SlotDealer.minNewSlotNr sameDealer⟩

/-- A register for two records, after both were added and the first one was removed. -/
theorem refines_partialMap_recycled : RefinesPartialMap
    ⟨⟨[7, 8], [0], 2, 2⟩, note (note (note (fun _ => none) (some 0) (.add 7)) (some 1) (.add 8))
      none (.remove 0)⟩ := by
  apply refines_partialMap
  have reserved : Transition.Reachable Step Permitted initial
      (⟨⟨[0, 0], [], 2, 0⟩, fun _ => none⟩ : Recorded ℕ) :=
    Transition.Reachable.refl.tail (show Permitted _ (.reserve .none 0 2) from trivial)
      ⟨none, rfl, rfl⟩
  have first : Transition.Reachable Step Permitted initial
      (⟨⟨[7, 0], [], 2, 1⟩, note (fun _ => none) (some 0) (.add 7)⟩ : Recorded ℕ) :=
    reserved.tail (show Permitted _ (.add 7) by decide) ⟨some 0, rfl, rfl⟩
  have second : Transition.Reachable Step Permitted initial
      (⟨⟨[7, 8], [], 2, 2⟩, note (note (fun _ => none) (some 0) (.add 7)) (some 1) (.add 8)⟩ :
        Recorded ℕ) :=
    first.tail (show Permitted _ (.add 8) by decide) ⟨some 1, rfl, rfl⟩
  exact second.tail (show Permitted _ (.remove 0) by decide) ⟨none, rfl, rfl⟩

end Recorded

end MemoryRegister

end Talpf
