import Talpf.IBVerbs.Keys

/-!
# Registrations with the device

The record of a slot holds the shared region of its area, which stays registered
with the device for as long as some record holds it.  A slot that is removed
keeps its record until the slot is dealt again or the register shrinks below it,
and with the record it keeps the registration.
-/

namespace Talpf

namespace MemoryRegister

variable {Record : Type}

/-- The records of slots that are not in use have a property. -/
def Retired (property : Record → Prop) (register : MemoryRegister Record) : Prop :=
  ∀ slot record, register.lookup slot = some record → ¬register.dealer.Live slot → property record

section Retired

variable {property : Record → Prop} {register after : MemoryRegister Record} {entry : Record}
  {slot : ℕ}

theorem retired_empty : Retired property (empty : MemoryRegister Record) := by
  intro slot record found
  cases found

theorem Retired.add (retired : Retired property register) (wellFormed : register.WellFormed)
    (adds : register.add entry = some (slot, after)) : Retired property after := by
  rcases add_cases adds with ⟨isDealt, dealer, _⟩
  intro other record found dead
  rw [dealer, wellFormed.dealer.live_deal, ← isDealt, not_or] at dead
  rw [lookup_add adds, if_neg (Ne.symm dead.2)] at found
  exact retired other record found dead.1

/-- Changing the record of a slot in use does not matter. -/
theorem Retired.update (retired : Retired property register) (live : register.dealer.Live slot)
    (change : Record → Record) : Retired property (register.update slot change) := by
  intro other record found dead
  rw [dealer_update] at dead
  have differs : slot ≠ other := by
    rintro rfl
    exact dead live
  rw [lookup_update, if_neg differs] at found
  exact retired other record found dead

/-- A slot is dealt with its record, which may be changed at once. -/
theorem Retired.add_update (retired : Retired property register) (wellFormed : register.WellFormed)
    (adds : register.add entry = some (slot, after)) (change : Record → Record) :
    Retired property (after.update slot change) := by
  rcases add_cases adds with ⟨isDealt, dealer, _⟩
  have live : after.dealer.Live slot := by
    rw [dealer, wellFormed.dealer.live_deal]
    exact Or.inr isDealt
  exact (retired.add wellFormed adds).update live change

theorem Retired.of_record (retired : Retired property register)
    (found : register.lookup slot = some entry) (dead : register.record slot = none) :
    property entry := by
  rw [record] at dead
  split at dead
  next =>
    rw [found] at dead
    cases dead
  next notLive => exact retired slot entry found notLive

/-- A removed slot keeps its record. -/
theorem retired_remove_iff (property : Record → Prop)
    (found : register.record slot = some entry)
    (removes : register.remove slot = some after) :
    Retired property after ↔ Retired property register ∧ property entry := by
  rcases live_of_record found with ⟨live, itsEntry⟩
  rcases remove_cases removes with ⟨dealer, slots, _⟩
  have sameLookup : ∀ other, after.lookup other = register.lookup other := by
    intro other
    rw [lookup, lookup, slots]
  constructor
  · intro retired
    constructor
    · intro other record found dead
      apply retired other record ((sameLookup other).trans found)
      rw [dealer, SlotDealer.live_recycle _ live]
      exact fun both => dead both.1
    · apply retired slot entry ((sameLookup slot).trans itsEntry)
      rw [dealer, SlotDealer.live_recycle _ live]
      exact fun both => both.2 rfl
  · rintro ⟨retired, holds⟩ other record found dead
    rw [sameLookup] at found
    rw [dealer, SlotDealer.live_recycle _ live] at dead
    by_cases same : other = slot
    · rw [same, itsEntry, Option.some.injEq] at found
      exact found ▸ holds
    · exact retired other record found fun isLive => dead ⟨isLive, same⟩

/-- A register grows by default records and shrinks by records that are not in use. -/
theorem Retired.reserve (retired : Retired property register) (faults : ReserveFaults)
    {defaultRecord : Record} (default : property defaultRecord) (newSize : ℕ) :
    Retired property (register.reserve faults defaultRecord newSize).1 := by
  have kept : ∀ {size slot : ℕ} {record : Record}, (register.slots.take size)[slot]? = some record →
      register.slots[slot]? = some record := by
    intro size slot record found
    rw [List.getElem?_take] at found
    split at found
    next => exact found
    next => cases found
  intro slot record found dead
  rw [dealer_reserve] at dead
  simp only [MemoryRegister.reserve, lookup] at found
  split_ifs at found
  · exact retired slot record found dead
  · exact retired slot record found dead
  · exact retired slot record found dead
  · rw [List.getElem?_append] at found
    split at found
    next => exact retired slot record found dead
    next =>
      rw [List.eq_of_mem_replicate (List.mem_of_getElem? found)]
      exact default
  · exact retired slot record (kept found) dead
  · exact retired slot record (kept found) dead

end Retired

end MemoryRegister

namespace CombinedMemoryRegister

variable {Record : Type}

/-- The records of slots that are not in use have a property in both parts. -/
structure Retired (property : Record → Prop) (register : CombinedMemoryRegister Record) : Prop where
  localRegister : register.localRegister.Retired property
  globalRegister : register.globalRegister.Retired property

section Retired

variable {property : Record → Prop} {register after : CombinedMemoryRegister Record}
  {entry : Record} {slot : ℕ}

theorem retired_empty : Retired property (empty : CombinedMemoryRegister Record) :=
  ⟨MemoryRegister.retired_empty, MemoryRegister.retired_empty⟩

/-- In terms of slot numbers. -/
theorem retired_iff : Retired property register ↔
    ∀ slot entry, register.lookup slot = some entry → register.record slot = none →
      property entry := by
  constructor
  · intro retired slot entry found dead
    rw [lookup] at found
    rw [record] at dead
    split at found
    next isLocal =>
      rw [if_pos isLocal] at dead
      exact retired.localRegister.of_record found dead
    next isGlobal =>
      rw [if_neg isGlobal] at dead
      exact retired.globalRegister.of_record found dead
  · intro retired
    constructor
    · intro slot entry found notLive
      apply retired (toLocal slot) entry
      · rw [lookup_toLocal, found]
      · rw [record, isLocalSlot_toLocal, if_pos rfl, fromLocal_toLocal]
        exact if_neg notLive
    · intro slot entry found notLive
      apply retired (toGlobal slot) entry
      · rw [lookup_toGlobal, found]
      · rw [record, isLocalSlot_toGlobal, if_neg Bool.false_ne_true, fromGlobal_toGlobal]
        exact if_neg notLive

theorem Retired.addLocalReg (retired : Retired property register) (wellFormed : register.WellFormed)
    (added : register.addLocalReg entry = some (slot, after)) (change : Record → Record) :
    Retired property (after.update slot change) := by
  rcases Option.map_eq_some_iff.mp added with ⟨⟨dealt, grown⟩, adds, result⟩
  rw [Prod.mk.injEq] at result
  rcases result with ⟨rfl, rfl⟩
  rw [update_toLocal]
  exact ⟨retired.localRegister.add_update wellFormed.localRegister adds change,
    retired.globalRegister⟩

theorem Retired.addGlobalReg (retired : Retired property register)
    (wellFormed : register.WellFormed)
    (added : register.addGlobalReg entry = some (slot, after)) (change : Record → Record) :
    Retired property (after.update slot change) := by
  rcases Option.map_eq_some_iff.mp added with ⟨⟨dealt, grown⟩, adds, result⟩
  rw [Prod.mk.injEq] at result
  rcases result with ⟨rfl, rfl⟩
  rw [update_toGlobal]
  exact ⟨retired.localRegister,
    retired.globalRegister.add_update wellFormed.globalRegister adds change⟩

/-- What is removed has to have the property already. -/
theorem retired_removeReg_iff (found : register.record slot = some entry)
    (removed : register.removeReg slot = some after) :
    Retired property after ↔ Retired property register ∧ property entry := by
  rw [record] at found
  rw [removeReg] at removed
  split at found
  next isLocal =>
    rw [if_pos isLocal] at removed
    rcases Option.map_eq_some_iff.mp removed with ⟨shrunk, removes, rfl⟩
    have retires := MemoryRegister.retired_remove_iff property found removes
    constructor
    · intro retired
      rcases retires.mp retired.localRegister with ⟨locals, holds⟩
      exact ⟨⟨locals, retired.globalRegister⟩, holds⟩
    · rintro ⟨retired, holds⟩
      exact ⟨retires.mpr ⟨retired.localRegister, holds⟩, retired.globalRegister⟩
  next isGlobal =>
    rw [if_neg isGlobal] at removed
    rcases Option.map_eq_some_iff.mp removed with ⟨shrunk, removes, rfl⟩
    have retires := MemoryRegister.retired_remove_iff property found removes
    constructor
    · intro retired
      rcases retires.mp retired.globalRegister with ⟨globals, holds⟩
      exact ⟨⟨retired.localRegister, globals⟩, holds⟩
    · rintro ⟨retired, holds⟩
      exact ⟨retired.localRegister, retires.mpr ⟨retired.globalRegister, holds⟩⟩

theorem Retired.reserve (retired : Retired property register)
    (globalFaults localFaults : ReserveFaults) {defaultRecord : Record}
    (default : property defaultRecord) (size : ℕ) :
    Retired property (register.reserve globalFaults localFaults defaultRecord size).1 := by
  have globals := retired.globalRegister.reserve globalFaults default size
  have locals := retired.localRegister.reserve localFaults default size
  rw [CombinedMemoryRegister.reserve]
  split
  next globalRegister thrown result =>
    rw [result] at globals
    exact ⟨retired.localRegister, globals⟩
  next globalRegister result =>
    rw [result] at globals
    exact ⟨locals, globals⟩

end Retired

end CombinedMemoryRegister

open Spmd

namespace IBVerbs

variable {n : ℕ}

/-- A region is registered with the device for as long as the record under some slot number holds
it. -/
def Registered (verbs : IBVerbs n) (slot : ℕ) : Prop :=
  ∃ entry, verbs.memreg.lookup slot = some entry ∧ entry.mr.isSome

/-- A slot in use has a region. -/
def Owns (verbs : IBVerbs n) (slot : ℕ) : Prop :=
  ∃ entry, verbs.memreg.record slot = some entry ∧ entry.mr.isSome

/-- Exactly the regions of slots in use are registered with the device. -/
def RegisteredExactly (verbs : IBVerbs n) : Prop := ∀ slot, verbs.Registered slot ↔ verbs.Owns slot

/-- A slot that is dropped has no region: its area is empty. -/
def DropsNothing (state : Fin n → IBVerbs n) : Call n → Prop
  | .deregLocal pid id => ¬(state pid).Owns id
  | .deregGlobal id => ∀ p, ¬(state p).Owns id
  | _ => True

/-- The calls of a run with the states in which they are made, the latest first, and the state that
they lead to. -/
inductive Visits (devices : Fin n → Device n) :
    List ((Fin n → IBVerbs n) × Call n) → (Fin n → IBVerbs n) → Prop where
  | start : Visits devices [] fun p => initial (devices p)
  | call {past : List ((Fin n → IBVerbs n) × Call n)} {before after : Fin n → IBVerbs n}
      {call : Call n} (visits : Visits devices past before) (permitted : Permitted before call)
      (taken : Step before call after) : Visits devices ((before, call) :: past) after

theorem Visits.reachable {devices : Fin n → Device n} {past : List ((Fin n → IBVerbs n) × Call n)}
    {state : Fin n → IBVerbs n} (visits : Visits devices past state) :
    Reachable devices state := by
  induction visits with
  | start => exact Transition.Reachable.refl
  | call _ permitted taken ih => exact ih.call _ permitted taken

/-- A record without a region. -/
abbrev Unregistered (entry : MemorySlot n) : Prop := entry.mr = none

theorem registeredExactly_iff {verbs : IBVerbs n} :
    verbs.RegisteredExactly ↔ verbs.memreg.Retired Unregistered := by
  rw [CombinedMemoryRegister.retired_iff]
  constructor
  · intro exact slot entry found dead
    by_contra region
    have registered : verbs.Registered slot :=
      ⟨entry, found, Option.isSome_iff_ne_none.mpr region⟩
    rcases (exact slot).mp registered with ⟨owner, owns, _⟩
    rw [dead] at owns
    cases owns
  · intro retired slot
    constructor
    · rintro ⟨entry, found, region⟩
      cases owner : verbs.memreg.record slot with
      | none =>
          rw [retired slot entry found owner] at region
          cases region
      | some other =>
          have same := CombinedMemoryRegister.lookup_of_record owner
          rw [found, Option.some.injEq] at same
          exact ⟨other, owner, same ▸ region⟩
    · rintro ⟨entry, found, region⟩
      exact ⟨entry, CombinedMemoryRegister.lookup_of_record found, region⟩

/-- The records that are not in use hold no region, at any process. -/
def AllRetired (state : Fin n → IBVerbs n) : Prop :=
  ∀ p, (state p).memreg.Retired Unregistered

section Steps

variable {before after : Fin n → IBVerbs n} {pid : Fin n} {verbs : IBVerbs n}

theorem allRetired_update (retired : AllRetired before) :
    AllRetired (Function.update before pid verbs) ↔ verbs.memreg.Retired Unregistered := by
  constructor
  · intro all
    have itself := all pid
    rw [Function.update_self] at itself
    exact itself
  · intro itself p
    rw [Function.update_apply]
    split
    next => exact itself
    next => exact retired p

theorem AllRetired.regLocal (retired : AllRetired before) (consistent : Consistent before)
    {addr size : ℕ} {result : Except Exn ℕ}
    (registers : IBVerbs.regLocal pid (before pid) addr size = some (verbs, result)) :
    verbs.memreg.Retired Unregistered := by
  have opened := memreg_openMr (before pid) size
  simp only [IBVerbs.regLocal] at registers
  generalize (before pid).openMr size = answer at registers opened
  rcases answer with ⟨mr, answered⟩
  simp only at registers opened
  split at registers
  next =>
    rw [Option.some.injEq, Prod.mk.injEq] at registers
    rw [← registers.1, opened]
    exact retired pid
  next =>
    rcases Option.map_eq_some_iff.mp registers with ⟨⟨id, memreg⟩, adds, stored⟩
    rw [Prod.mk.injEq] at stored
    rw [opened] at adds
    rw [← stored.1]
    exact (retired pid).addLocalReg (consistent.wellFormed pid) adds _

theorem AllRetired.regGlobal (retired : AllRetired before) (consistent : Consistent before)
    {addr size : Fin n → ℕ} {rounds : List (Fin n → Collective n)}
    {results : Fin n → IBVerbs n × Except Exn ℕ}
    (execution : Executes (regAll before addr size) rounds results) :
    AllRetired fun p => (results p).1 := by
  rcases regAll_cases execution with same | ⟨ids, memregs, stores⟩
  · intro p
    rw [same]
    exact retired p
  · intro p
    rw [(stores p).2]
    exact (retired p).addGlobalReg (consistent.wellFormed p) (stores p).1 _

/-- A slot is dropped without its record. -/
theorem retired_dereg_iff {id : ℕ} (retired : verbs.memreg.Retired Unregistered)
    (live : (verbs.memreg.record id).isSome) {dropped : IBVerbs n}
    (drops : verbs.dereg id = some dropped) :
    dropped.memreg.Retired Unregistered ↔ ¬verbs.Owns id := by
  rcases Option.map_eq_some_iff.mp drops with ⟨memreg, removes, rfl⟩
  rcases Option.isSome_iff_exists.mp live with ⟨entry, found⟩
  rw [CombinedMemoryRegister.retired_removeReg_iff found removes, and_iff_right retired]
  constructor
  · rintro region ⟨owner, owns, itsRegion⟩
    rw [found, Option.some.injEq] at owns
    rw [← owns, region] at itsRegion
    cases itsRegion
  · intro unowned
    by_contra region
    exact unowned ⟨entry, found, Option.isSome_iff_ne_none.mpr region⟩

/-- A call keeps exactly the regions of slots in use registered unless it drops a region. -/
theorem allRetired_step_iff {call : Call n} (retired : AllRetired before)
    (consistent : Consistent before) (permitted : Permitted before call)
    (taken : Step before call after) : AllRetired after ↔ DropsNothing before call := by
  cases call with
  | regLocal pid addr size =>
      rcases taken with ⟨verbs, result, registers, rfl⟩
      exact iff_of_true ((allRetired_update retired).mpr (retired.regLocal consistent registers))
        trivial
  | regGlobal addr size =>
      rcases taken with ⟨rounds, results, execution, rfl⟩
      exact iff_of_true (retired.regGlobal consistent execution) trivial
  | deregLocal pid id =>
      rcases taken with ⟨verbs, drops, rfl⟩
      exact (allRetired_update retired).trans (retired_dereg_iff (retired pid) permitted.2 drops)
  | deregGlobal id =>
      exact forall_congr' fun p => retired_dereg_iff (retired p) (permitted.2 p) (taken p)
  | resizeMemreg pid globalFaults localFaults size =>
      rw [taken, allRetired_update retired]
      refine iff_of_true ?_ trivial
      rw [resizeMemreg]
      split
      next => exact retired pid
      next =>
        split
        next => exact retired pid
        next => exact (retired pid).reserve globalFaults localFaults rfl size
  | other pid =>
      rcases taken with ⟨verbs, same, rfl⟩
      refine iff_of_true ((allRetired_update retired).mpr ?_) trivial
      rw [same]
      exact retired pid

end Steps

/--
In every state of a run exactly the regions of slots in use are registered with
the device, if and only if no call of the run drops a slot with a region.
-/
theorem registeredExactly_iff_dropsNothing {devices : Fin n → Device n}
    {past : List ((Fin n → IBVerbs n) × Call n)} {state : Fin n → IBVerbs n}
    (visits : Visits devices past state) :
    (∀ visited ∈ state :: past.map Prod.fst, ∀ p, (visited p).RegisteredExactly) ↔
      ∀ made ∈ past, DropsNothing made.1 made.2 := by
  induction visits with
  | start =>
      refine iff_of_true ?_ (fun _ made => absurd made List.not_mem_nil)
      intro visited isStart p
      rw [List.mem_singleton.mp isStart, registeredExactly_iff]
      exact CombinedMemoryRegister.retired_empty
  | @call past before after call visits permitted taken ih =>
      have step : (∀ visited ∈ before :: past.map Prod.fst, ∀ p, (visited p).RegisteredExactly) →
          ((∀ p, (after p).RegisteredExactly) ↔ DropsNothing before call) := by
        intro exact
        have retired : AllRetired before := fun p =>
          registeredExactly_iff.mp (exact before List.mem_cons_self p)
        rw [← allRetired_step_iff retired visits.reachable.consistent permitted taken]
        exact forall_congr' fun p => registeredExactly_iff
      have calls : (∀ made ∈ (before, call) :: past, DropsNothing made.1 made.2) ↔
          DropsNothing before call ∧ ∀ made ∈ past, DropsNothing made.1 made.2 :=
        List.forall_mem_cons
      rw [List.forall_mem_cons, calls, ← ih]
      constructor
      · rintro ⟨exact, earlier⟩
        exact ⟨(step earlier).mp exact, earlier⟩
      · rintro ⟨careful, earlier⟩
        exact ⟨(step earlier).mpr careful, earlier⟩

/-- A process with room for one slot of each kind. -/
def roomy : IBVerbs 1 := ((initial (.generous 1)).resizeMemreg .none .none 1).1

/-- The process has registered eight bytes at 100. -/
def oneLocal : IBVerbs 1 :=
  { roomy with
    memreg := ⟨⟨[⟨some ⟨0, 0⟩, Function.update (fun _ => .null) ⟨0, Nat.zero_lt_one⟩
      ⟨100, 8, 0, 0⟩⟩], [], 1, 1⟩, roomy.memreg.globalRegister⟩
    device := { roomy.device with regMrCalls := 1 } }

/-- The calls that lead there. -/
def registering : List ((Fin 1 → IBVerbs 1) × Call 1) :=
  [(fun _ => roomy, .regLocal 0 100 8),
    (fun _ => initial (.generous 1), .resizeMemreg 0 .none .none 1)]

theorem visits_registering : Visits (fun _ => .generous 1) registering fun _ => oneLocal := by
  have resized : Visits (fun _ : Fin 1 => .generous 1)
      [(fun _ => initial (.generous 1), .resizeMemreg 0 .none .none 1)] fun _ => roomy :=
    .call .start trivial (funext (Fin.forall_fin_one.mpr rfl))
  exact .call resized trivial ⟨oneLocal, _, rfl, funext (Fin.forall_fin_one.mpr rfl)⟩

theorem registeredExactly_registering : oneLocal.RegisteredExactly := by
  refine (registeredExactly_iff_dropsNothing visits_registering).mpr ?_ (fun _ => oneLocal)
    List.mem_cons_self 0
  intro made member
  rcases List.mem_cons.mp member with rfl | member
  · trivial
  · rw [List.mem_singleton.mp member]
    trivial

/-- The process drops its slot again. -/
def oneDropped : IBVerbs 1 :=
  { oneLocal with
    memreg := ⟨⟨oneLocal.memreg.localRegister.slots, [], 1, 0⟩,
      oneLocal.memreg.globalRegister⟩ }

/-- The region of a dropped slot is still registered. -/
theorem not_registeredExactly : ∃ past state, Visits (fun _ : Fin 1 => .generous 1) past state ∧
    ¬(state 0).RegisteredExactly := by
  have drops : Step (fun _ => oneLocal) (.deregLocal 0 1) fun _ => oneDropped :=
    ⟨oneDropped, rfl, funext (Fin.forall_fin_one.mpr rfl)⟩
  have allowed : Permitted (fun _ => oneLocal) (.deregLocal 0 1) := ⟨rfl, rfl⟩
  refine ⟨_, fun _ => oneDropped, .call visits_registering allowed drops, ?_⟩
  intro exact
  rcases (exact 1).mp ⟨_, rfl, rfl⟩ with ⟨entry, owns, _⟩
  cases owns

end IBVerbs

end Talpf
