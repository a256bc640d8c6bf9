import Talpf.Library.Transition
import Talpf.MemoryTable.Refusals
import Mathlib.Data.Set.Function

/-!
# Syncs that throw and are retried

The slots of the verbs layer should be the verbs slots of those slots of the
memory table that are not pending.  A sync registers the pending slots one by
one, but forgets that they are pending only at its end.  If it throws at its
first pending slot, nothing has changed; if it throws later, the slots before
are registered and still pending.
-/

namespace Talpf

open Spmd
open CombinedMemoryRegister (toGlobal toLocal)

namespace SparseSet

theorem WellFormed.contains_iff_mem {set : SparseSet} (wellFormed : set.WellFormed)
    (fromZero : set.min = 0) (x : ℕ) : set.contains x = true ↔ x ∈ set.elements := by
  by_cases upper : x ≤ set.max
  · rw [wellFormed.contains_iff (by omega) upper, fromZero, Nat.sub_zero]
  · have := wellFormed.domainLength
    have beyond : set.contains x = false := by simp [SparseSet.contains, upper]
    rw [beyond, wellFormed.mem_elements]
    simp only [Bool.false_eq_true, false_iff, not_and]
    omega

end SparseSet

namespace MemoryTable

variable {n : ℕ}

/-- The verbs slot that a table register remembers for a slot. -/
def verbId (table : MemoryRegister Memory) (slot : ℕ) : ℕ :=
  ((table.lookup slot).map Memory.slot).getD Memory.invalidSlot

/-- The slots in use, other than those that wait, and the verbs slots in use belong together one
to one. -/
structure Linked (toId : ℕ → ℕ) (waits : ℕ → Prop) (table : MemoryRegister Memory)
    (verbs : MemoryRegister (MemorySlot n)) : Prop where
  tableWellFormed : table.WellFormed
  verbsWellFormed : verbs.WellFormed
  bijective : Set.BijOn (verbId table) {slot | table.dealer.Live slot ∧ ¬waits slot}
    (toId '' {id | verbs.dealer.Live id})

namespace Linked

variable {toId : ℕ → ℕ} {waits waitsAfter : ℕ → Prop} {table tableAfter : MemoryRegister Memory}
  {verbs verbsAfter : MemoryRegister (MemorySlot n)}

theorem initial (toId : ℕ → ℕ) (waits : ℕ → Prop) :
    Linked toId waits .empty (.empty : MemoryRegister (MemorySlot n)) where
  tableWellFormed := MemoryRegister.wellFormed_empty
  verbsWellFormed := MemoryRegister.wellFormed_empty
  bijective := by
    have noSlot : {slot | (MemoryRegister.empty : MemoryRegister Memory).dealer.Live slot ∧
        ¬waits slot} = ∅ :=
      Set.eq_empty_of_forall_notMem fun slot live => SlotDealer.not_live_initial slot live.1
    have noId : {id | (MemoryRegister.empty : MemoryRegister (MemorySlot n)).dealer.Live id} = ∅ :=
      Set.eq_empty_of_forall_notMem fun id live => SlotDealer.not_live_initial id live
    rw [noSlot, noId, Set.image_empty]
    exact Set.bijOn_empty _

/-- Slots that neither wait nor change keep their verbs slots. -/
theorem of_same (linked : Linked toId waits table verbs)
    (tableWellFormed : tableAfter.WellFormed) (verbsWellFormed : verbsAfter.WellFormed)
    (sameVerbs : verbsAfter.dealer = verbs.dealer)
    (sameSlots : ∀ slot, tableAfter.dealer.Live slot ∧ ¬waitsAfter slot ↔
      table.dealer.Live slot ∧ ¬waits slot)
    (sameLookup : ∀ slot, table.dealer.Live slot → ¬waits slot →
      verbId tableAfter slot = verbId table slot) :
    Linked toId waitsAfter tableAfter verbsAfter := by
  refine ⟨tableWellFormed, verbsWellFormed, ?_⟩
  rw [sameVerbs, Set.ext sameSlots]
  apply linked.bijective.congr
  rintro slot ⟨live, attached⟩
  exact (sameLookup slot live attached).symm

/-- A slot that gets a new verbs slot is added to the correspondence. -/
theorem extend (linked : Linked toId waits table verbs) (injective : Function.Injective toId)
    (tableWellFormed : tableAfter.WellFormed) (verbsWellFormed : verbsAfter.WellFormed)
    (dealt : verbsAfter.dealer = verbs.dealer.deal.2) {slot : ℕ}
    (newSlots : ∀ other, tableAfter.dealer.Live other ∧ ¬waitsAfter other ↔
      other = slot ∨ table.dealer.Live other ∧ ¬waits other)
    (newId : verbId tableAfter slot = toId verbs.dealer.deal.1)
    (sameLookup : ∀ other, table.dealer.Live other → ¬waits other →
      verbId tableAfter other = verbId table other) :
    Linked toId waitsAfter tableAfter verbsAfter := by
  refine ⟨tableWellFormed, verbsWellFormed, ?_⟩
  have ids : {id | verbsAfter.dealer.Live id} =
      insert verbs.dealer.deal.1 {id | verbs.dealer.Live id} := by
    ext id
    rw [Set.mem_ofPred_eq, dealt, linked.verbsWellFormed.dealer.live_deal, Set.mem_insert_iff,
      or_comm]
    rfl
  have slots : {other | tableAfter.dealer.Live other ∧ ¬waitsAfter other} =
      insert slot {other | table.dealer.Live other ∧ ¬waits other} := Set.ext newSlots
  have kept : Set.BijOn (verbId tableAfter) {other | table.dealer.Live other ∧ ¬waits other}
      (toId '' {id | verbs.dealer.Live id}) := by
    apply linked.bijective.congr
    rintro other ⟨live, attached⟩
    exact (sameLookup other live attached).symm
  rw [ids, slots, Set.image_insert_eq, ← newId]
  apply kept.insert
  rw [newId]
  rintro ⟨id, live, same⟩
  rw [injective same] at live
  exact verbs.dealer.not_live_deal live

/-- A slot that gives its verbs slot back is taken out of the correspondence. -/
theorem shrink (linked : Linked toId waits table verbs) (injective : Function.Injective toId)
    (tableWellFormed : tableAfter.WellFormed) (verbsWellFormed : verbsAfter.WellFormed)
    {slot id : ℕ} (live : table.dealer.Live slot) (attached : ¬waits slot)
    (idLive : verbs.dealer.Live id) (itsId : verbId table slot = toId id)
    (recycled : verbsAfter.dealer = verbs.dealer.recycle id)
    (fewerSlots : ∀ other, tableAfter.dealer.Live other ∧ ¬waitsAfter other ↔
      (table.dealer.Live other ∧ ¬waits other) ∧ other ≠ slot)
    (sameLookup : ∀ other, table.dealer.Live other → ¬waits other → other ≠ slot →
      verbId tableAfter other = verbId table other) :
    Linked toId waitsAfter tableAfter verbsAfter := by
  refine ⟨tableWellFormed, verbsWellFormed, ?_⟩
  have ids : toId '' {id | verbsAfter.dealer.Live id} =
      (toId '' {id | verbs.dealer.Live id}) \ {verbId table slot} := by
    have fewer : {id | verbsAfter.dealer.Live id} = {id | verbs.dealer.Live id} \ {id} := by
      ext other
      rw [Set.mem_ofPred_eq, recycled, SlotDealer.live_recycle _ idLive]
      rfl
    rw [fewer, Set.image_sdiff injective, Set.image_singleton, itsId]
  have slots : {other | tableAfter.dealer.Live other ∧ ¬waitsAfter other} =
      {other | table.dealer.Live other ∧ ¬waits other} \ {slot} := Set.ext fewerSlots
  rw [ids, slots]
  apply (linked.bijective.sdiff_singleton ⟨live, attached⟩).congr
  rintro other ⟨⟨otherLive, otherAttached⟩, differs⟩
  exact (sameLookup other otherLive otherAttached differs).symm

theorem verbId_of_lookup {slot : ℕ}
    (same : tableAfter.lookup slot = table.lookup slot) :
    verbId tableAfter slot = verbId table slot := by
  rw [verbId, verbId, same]

/-- A slot that is added with a new verbs slot joins the correspondence. -/
theorem join (linked : Linked toId waits table verbs) (injective : Function.Injective toId)
    {slot : ℕ} {memory : Memory} {entry : MemorySlot n} {grown : MemoryRegister (MemorySlot n)}
    (added : table.add memory = some (slot, tableAfter))
    (registered : verbs.add entry = some (verbs.dealer.deal.1, grown))
    (itsId : memory.slot = toId verbs.dealer.deal.1) (attached : ¬waits slot)
    (change : MemorySlot n → MemorySlot n) :
    Linked toId waits tableAfter (grown.update verbs.dealer.deal.1 change) := by
  rcases MemoryRegister.add_cases added with ⟨rfl, moved, _, _, _⟩
  apply linked.extend injective (linked.tableWellFormed.add added)
    ((linked.verbsWellFormed.add registered).update _ change)
    (MemoryRegister.add_cases registered).2.1
  · intro other
    rw [moved, linked.tableWellFormed.dealer.live_deal]
    constructor
    · rintro ⟨old | same, notWaiting⟩
      · exact Or.inr ⟨old, notWaiting⟩
      · exact Or.inl same
    · rintro (rfl | ⟨old, notWaiting⟩)
      · exact ⟨Or.inr rfl, attached⟩
      · exact ⟨Or.inl old, notWaiting⟩
  · rw [verbId, MemoryRegister.lookup_add added, if_pos rfl]
    exact itsId
  · intro other live _
    apply verbId_of_lookup
    rw [MemoryRegister.lookup_add added, if_neg]
    rintro rfl
    exact table.dealer.not_live_deal live

/-- A slot that waits and gets a new verbs slot joins the correspondence. -/
theorem attach (linked : Linked toId waits table verbs) (injective : Function.Injective toId)
    {slot : ℕ} {entry : MemorySlot n} {grown : MemoryRegister (MemorySlot n)}
    (live : table.dealer.Live slot) (waiting : waits slot)
    (registered : verbs.add entry = some (verbs.dealer.deal.1, grown))
    (change : MemorySlot n → MemorySlot n)
    (waitsLess : ∀ other, waitsAfter other ↔ waits other ∧ other ≠ slot) :
    Linked toId waitsAfter
      (table.update slot fun memory => { memory with slot := toId verbs.dealer.deal.1 })
      (grown.update verbs.dealer.deal.1 change) := by
  apply linked.extend injective (linked.tableWellFormed.update _ _)
    ((linked.verbsWellFormed.add registered).update _ change)
    (MemoryRegister.add_cases registered).2.1
  · intro other
    rw [MemoryRegister.dealer_update, waitsLess]
    constructor
    · rintro ⟨old, notWaiting⟩
      by_cases same : other = slot
      · exact Or.inl same
      · exact Or.inr ⟨old, fun waits => notWaiting ⟨waits, same⟩⟩
    · rintro (rfl | ⟨old, notWaiting⟩)
      · exact ⟨live, fun waits => waits.2 rfl⟩
      · exact ⟨old, fun waits => notWaiting waits.1⟩
  · have bound : slot < table.slots.length := linked.tableWellFormed.live_lt live
    rw [verbId, MemoryRegister.lookup_update, if_pos rfl, MemoryRegister.lookup,
      List.getElem?_eq_getElem bound]
    rfl
  · intro other _ notWaiting
    apply verbId_of_lookup
    rw [MemoryRegister.lookup_update, if_neg]
    rintro rfl
    exact notWaiting waiting

/-- A new slot that waits changes nothing. -/
theorem store (linked : Linked toId waits table verbs) {slot : ℕ} {memory : Memory}
    (added : table.add memory = some (slot, tableAfter))
    (waitsMore : ∀ other, waitsAfter other ↔ waits other ∨ other = slot) :
    Linked toId waitsAfter tableAfter verbs := by
  rcases MemoryRegister.add_cases added with ⟨rfl, moved, _, _, _⟩
  apply linked.of_same (linked.tableWellFormed.add added) linked.verbsWellFormed rfl
  · intro other
    rw [moved, linked.tableWellFormed.dealer.live_deal, waitsMore]
    constructor
    · rintro ⟨old | same, notWaiting⟩
      · exact ⟨old, fun waits => notWaiting (Or.inl waits)⟩
      · exact absurd (Or.inr same) notWaiting
    · rintro ⟨old, notWaiting⟩
      refine ⟨Or.inl old, ?_⟩
      rintro (waits | rfl)
      · exact notWaiting waits
      · exact table.dealer.not_live_deal old
  · intro other live _
    apply verbId_of_lookup
    rw [MemoryRegister.lookup_add added, if_neg]
    rintro rfl
    exact table.dealer.not_live_deal live

/-- Removing a slot that waits changes nothing. -/
theorem forget (linked : Linked toId waits table verbs) {slot : ℕ}
    (live : table.dealer.Live slot) (waiting : waits slot)
    (removed : table.remove slot = some tableAfter)
    (waitsLess : ∀ other, waitsAfter other ↔ waits other ∧ other ≠ slot) :
    Linked toId waitsAfter tableAfter verbs := by
  rcases MemoryRegister.remove_cases removed with ⟨recycled, sameSlots, _⟩
  apply linked.of_same (linked.tableWellFormed.remove live removed) linked.verbsWellFormed rfl
  · intro other
    rw [recycled, SlotDealer.live_recycle _ live, waitsLess]
    constructor
    · rintro ⟨⟨old, differs⟩, notWaiting⟩
      exact ⟨old, fun waits => notWaiting ⟨waits, differs⟩⟩
    · rintro ⟨old, notWaiting⟩
      refine ⟨⟨old, ?_⟩, fun waits => notWaiting waits.1⟩
      rintro rfl
      exact notWaiting waiting
  · intro other _ _
    apply verbId_of_lookup
    rw [MemoryRegister.lookup, sameSlots]
    rfl

/-- Removing a slot together with its verbs slot takes it out of the correspondence. -/
theorem detach (linked : Linked toId waits table verbs) (injective : Function.Injective toId)
    {slot id : ℕ} (live : table.dealer.Live slot) (attached : ¬waits slot)
    (itsId : verbId table slot = toId id) (removed : table.remove slot = some tableAfter)
    (deregistered : verbs.remove id = some verbsAfter) :
    Linked toId waits tableAfter verbsAfter := by
  rcases MemoryRegister.remove_cases removed with ⟨recycled, sameSlots, _⟩
  have idLive : verbs.dealer.Live id := by
    rcases linked.bijective.mapsTo ⟨live, attached⟩ with ⟨other, otherLive, same⟩
    rw [itsId] at same
    rw [← injective same]
    exact otherLive
  apply linked.shrink injective (linked.tableWellFormed.remove live removed)
    (linked.verbsWellFormed.remove idLive deregistered) live attached idLive itsId
    (MemoryRegister.remove_cases deregistered).1
  · intro other
    rw [recycled, SlotDealer.live_recycle _ live]
    constructor
    · rintro ⟨⟨old, differs⟩, notWaiting⟩
      exact ⟨⟨old, notWaiting⟩, differs⟩
    · rintro ⟨⟨old, notWaiting⟩, differs⟩
      exact ⟨⟨old, differs⟩, notWaiting⟩
  · intro other _ _ _
    apply verbId_of_lookup
    rw [MemoryRegister.lookup, sameSlots]
    rfl

/-- Reserving memory changes no slot in use. -/
theorem reserveTable (linked : Linked toId waits table verbs) (faults : ReserveFaults)
    (record : Memory) (size : ℕ) :
    Linked toId waits (table.reserve faults record size).1 verbs := by
  apply linked.of_same (linked.tableWellFormed.reserve _ _ _) linked.verbsWellFormed rfl
  · intro slot
    rw [MemoryRegister.dealer_reserve]
  · intro slot live _
    apply verbId_of_lookup
    exact linked.tableWellFormed.lookup_reserve _ _ _ live.1

theorem reserveVerbs (linked : Linked toId waits table verbs) (faults : ReserveFaults)
    (entry : MemorySlot n) (size : ℕ) :
    Linked toId waits table (verbs.reserve faults entry size).1 := by
  apply linked.of_same linked.tableWellFormed (linked.verbsWellFormed.reserve _ _ _)
    (MemoryRegister.dealer_reserve _ _ _ _)
  · intro slot
    rfl
  · intro slot _ _
    rfl

end Linked

/-- A reduction in which this process or another one reports a refusal. -/
def reports : (machine n).Answer → Bool
  | ⟨.allreduceAnd _, _⟩ => true
  | ⟨.allreduceOr _, failed⟩ => failed
  | _ => false

/-- A local registration throws, or adds a slot to the verbs layer. -/
theorem regLocal_cases {pid : Fin n} {verbs after : IBVerbs n} {addr size : ℕ}
    {result : Except Exn ℕ} (registers : verbs.regLocal pid addr size = some (after, result)) :
    (result = .error .exception ∧ after.memreg = verbs.memreg) ∨
      ∃ entry grown change, verbs.memreg.localRegister.add entry =
          some (verbs.memreg.localRegister.dealer.deal.1, grown) ∧
        result = .ok (toLocal verbs.memreg.localRegister.dealer.deal.1) ∧
        after.memreg = ⟨grown.update verbs.memreg.localRegister.dealer.deal.1 change,
          verbs.memreg.globalRegister⟩ := by
  simp only [IBVerbs.regLocal] at registers
  split at registers
  next =>
    rw [Option.some.injEq, Prod.mk.injEq] at registers
    rcases registers with ⟨rfl, rfl⟩
    exact Or.inl ⟨rfl, IBVerbs.memreg_openMr verbs size⟩
  next =>
    right
    rcases Option.map_eq_some_iff.mp registers with ⟨⟨id, memreg⟩, adds, made⟩
    rw [Prod.mk.injEq] at made
    rcases made with ⟨rfl, rfl⟩
    rw [IBVerbs.memreg_openMr] at adds
    rcases Option.map_eq_some_iff.mp adds with ⟨⟨slot, grown⟩, stored, same⟩
    rw [Prod.mk.injEq] at same
    rcases same with ⟨rfl, rfl⟩
    have dealt := (MemoryRegister.add_cases stored).1
    subst dealt
    exact ⟨_, grown, _, stored, rfl, CombinedMemoryRegister.update_toLocal _ _ _⟩

/-- A global registration throws once somebody reports a refusal, and adds a slot otherwise. -/
theorem regGlobal_follows {verbs after : IBVerbs n} {addr size : ℕ}
    {answers : List (machine n).Answer} {result : Except Exn ℕ}
    (follows : Follows (verbs.regGlobal addr size) answers (after, result)) :
    (∃ answer, answers = [answer] ∧ reports answer = true ∧ result = .error .exception ∧
        after.memreg = verbs.memreg) ∨
      ∃ entry grown change, answers.length = 2 ∧ (∀ answer ∈ answers, reports answer = false) ∧
        verbs.memreg.globalRegister.add entry =
          some (verbs.memreg.globalRegister.dealer.deal.1, grown) ∧
        result = .ok (toGlobal verbs.memreg.globalRegister.dealer.deal.1) ∧
        after.memreg = ⟨verbs.memreg.localRegister,
          grown.update verbs.memreg.globalRegister.dealer.deal.1 change⟩ := by
  by_cases refuses : verbs.Refuses size
  · rw [IBVerbs.regGlobal_refused refuses addr] at follows
    rcases Follows.call_iff.mp follows with ⟨failed, later, rfl, thrown⟩
    rcases Follows.done_iff.mp thrown with ⟨rfl, made⟩
    rw [Prod.mk.injEq] at made
    rcases made with ⟨rfl, rfl⟩
    exact Or.inl ⟨_, rfl, rfl, rfl, IBVerbs.memreg_openMr verbs size⟩
  · unfold IBVerbs.Refuses at refuses
    simp only [IBVerbs.regGlobal, if_neg refuses, IBVerbs.memreg_openMr] at follows
    rcases Follows.call_iff.mp follows with ⟨failed, later, rfl, rest⟩
    split at rest
    next told =>
      rcases Follows.done_iff.mp rest with ⟨rfl, made⟩
      rw [Prod.mk.injEq] at made
      rcases made with ⟨rfl, rfl⟩
      exact Or.inl ⟨_, rfl, told, rfl, IBVerbs.memreg_openMr verbs size⟩
    next quiet =>
      right
      split at rest
      next => exact absurd rest Follows.not_fault
      next id memreg adds =>
        rcases Option.map_eq_some_iff.mp adds with ⟨⟨slot, grown⟩, stored, same⟩
        rw [Prod.mk.injEq] at same
        rcases same with ⟨rfl, rfl⟩
        have dealt := (MemoryRegister.add_cases stored).1
        subst dealt
        rcases Follows.call_iff.mp rest with ⟨areas, last, rfl, finished⟩
        rcases Follows.done_iff.mp finished with ⟨rfl, made⟩
        rw [Prod.mk.injEq] at made
        rcases made with ⟨rfl, rfl⟩
        refine ⟨_, grown, _, rfl, ?_, stored, rfl, CombinedMemoryRegister.update_toGlobal _ _ _⟩
        intro answer member
        rcases List.mem_cons.mp member with rfl | member
        · exact Bool.eq_false_iff.mpr quiet
        · rw [List.mem_singleton.mp member]
          rfl

theorem toGlobal_injective : Function.Injective toGlobal := by
  intro left right same
  rw [← CombinedMemoryRegister.fromGlobal_toGlobal left, same,
    CombinedMemoryRegister.fromGlobal_toGlobal]

theorem toLocal_injective : Function.Injective toLocal := by
  intro left right same
  rw [← CombinedMemoryRegister.fromLocal_toLocal left, same,
    CombinedMemoryRegister.fromLocal_toLocal]

/-- The global slots that wait are all in use, and the others have their verbs slots. -/
structure Waiting (slots : List ℕ) (table : MemoryTable) (verbs : IBVerbs n) : Prop where
  nodup : slots.Nodup
  inUse : ∀ i ∈ slots, ∃ slot, i = toGlobal slot ∧ table.memreg.globalRegister.dealer.Live slot
  linked : Linked toGlobal (fun slot => toGlobal slot ∈ slots) table.memreg.globalRegister
    verbs.memreg.globalRegister

/-- A sync does not touch local slots and the set of pending slots. -/
structure SameBesidesGlobal (table : MemoryTable) (verbs : IBVerbs n) (tableAfter : MemoryTable)
    (verbsAfter : IBVerbs n) : Prop where
  added : tableAfter.added = table.added
  localSlots : tableAfter.memreg.localRegister = table.memreg.localRegister
  localVerbs : verbsAfter.memreg.localRegister = verbs.memreg.localRegister
  dealer : tableAfter.memreg.globalRegister.dealer = table.memreg.globalRegister.dealer
  range : tableAfter.range = table.range

theorem SameBesidesGlobal.refl {table : MemoryTable} {verbs verbsAfter : IBVerbs n}
    (same : verbsAfter.memreg = verbs.memreg) :
    SameBesidesGlobal table verbs table verbsAfter :=
  ⟨rfl, rfl, by rw [same], rfl, rfl⟩

/-- The registration of pending slots stops after the last one, or where somebody reports a
refusal. -/
theorem syncSlots_follows {slots : List ℕ} {table tableAfter : MemoryTable}
    {verbs verbsAfter : IBVerbs n} {answers : List (machine n).Answer} {thrown : Option Exn}
    (waiting : Waiting slots table verbs)
    (follows : Follows (syncSlots slots table verbs) answers ((tableAfter, verbsAfter), thrown)) :
    ∃ registered remaining, slots = registered ++ remaining ∧
      Waiting remaining tableAfter verbsAfter ∧
      SameBesidesGlobal table verbs tableAfter verbsAfter ∧
      ((thrown = none ∧ remaining = [] ∧ ∀ answer ∈ answers, reports answer = false) ∨
        ∃ exn front last, thrown = some exn ∧ remaining ≠ [] ∧ answers = front ++ [last] ∧
          front.length = 2 * registered.length ∧ reports last = true) := by
  induction slots generalizing table verbs answers with
  | nil =>
      rcases Follows.done_iff.mp follows with ⟨rfl, made⟩
      simp only [Prod.mk.injEq] at made
      rcases made with ⟨⟨rfl, rfl⟩, rfl⟩
      exact ⟨[], [], rfl, waiting, .refl rfl, Or.inl ⟨rfl, rfl, by simp⟩⟩
  | cons i slots ih =>
      rcases waiting.inUse i List.mem_cons_self with ⟨slot, rfl, live⟩
      have bound : slot < table.memreg.globalRegister.slots.length :=
        waiting.linked.tableWellFormed.live_lt live
      rw [syncSlots_cons slots (List.getElem?_eq_getElem bound) verbs] at follows
      rcases Follows.bind_iff.mp follows with ⟨first, second, ⟨middle, result⟩, rfl, head, tail⟩
      rcases regGlobal_follows head with ⟨answer, rfl, reported, rfl, same⟩ |
        ⟨entry, grown, change, pair, quiet, stored, rfl, moved⟩
      · rcases Follows.done_iff.mp tail with ⟨rfl, made⟩
        simp only [Prod.mk.injEq] at made
        rcases made with ⟨⟨rfl, rfl⟩, rfl⟩
        refine ⟨[], _, rfl, ⟨waiting.nodup, waiting.inUse, ?_⟩, .refl same, Or.inr ?_⟩
        · rw [same]
          exact waiting.linked
        · exact ⟨_, [], answer, rfl, List.cons_ne_nil _ _, rfl, rfl, reported⟩
      · have distinct := List.nodup_cons.mp waiting.nodup
        have middleWaiting : Waiting slots
            (table.setSlot (toGlobal slot) (toGlobal verbs.memreg.globalRegister.dealer.deal.1))
            middle := by
          refine ⟨distinct.2, ?_, ?_⟩
          · intro i member
            rcases waiting.inUse i (List.mem_cons_of_mem _ member) with ⟨other, rfl, otherLive⟩
            refine ⟨other, rfl, ?_⟩
            simpa [setSlot] using otherLive
          · rw [moved, setSlot, CombinedMemoryRegister.update_toGlobal]
            apply waiting.linked.attach toGlobal_injective live List.mem_cons_self stored change
            intro other
            rw [List.mem_cons, toGlobal_injective.eq_iff]
            constructor
            · intro member
              refine ⟨Or.inr member, ?_⟩
              rintro rfl
              exact distinct.1 member
            · rintro ⟨same | member, differs⟩
              · exact absurd same differs
              · exact member
        rcases ih middleWaiting tail with
          ⟨registered, remaining, rfl, after, same, outcome⟩
        refine ⟨toGlobal slot :: registered, remaining, rfl, after, ?_, ?_⟩
        · refine ⟨same.added, ?_, ?_, ?_, ?_⟩
          · rw [same.localSlots]
            simp [setSlot]
          · rw [same.localVerbs, moved]
          · rw [same.dealer]
            simp [setSlot]
          · rw [same.range]
            simp [setSlot, MemoryTable.range, CombinedMemoryRegister.range]
        · rcases outcome with ⟨finished, none, laterQuiet⟩ |
            ⟨exn, front, last, throws, some, split, count, reported⟩
          · refine Or.inl ⟨finished, none, ?_⟩
            intro answer member
            rcases List.mem_append.mp member with early | late
            · exact quiet answer early
            · exact laterQuiet answer late
          · refine Or.inr ⟨exn, first ++ front, last, throws, some, ?_, ?_, reported⟩
            · rw [split, List.append_assoc]
            · rw [List.length_append, pair, count, List.length_cons]
              omega

/-- The pending slots wait, and all other slots in use have their verbs slots. -/
structure Consistent (table : MemoryTable) (verbs : IBVerbs n) : Prop where
  locals : Linked toLocal (fun _ => False) table.memreg.localRegister verbs.memreg.localRegister
  waiting : Waiting table.added.elements table verbs
  added : table.added.WellFormed
  fromZero : table.added.min = 0
  bounded : table.added.max ≤ table.range

/-- A slot of a combined register that is in use. -/
def InUse {Record : Type} (register : CombinedMemoryRegister Record) (slot : ℕ) : Prop :=
  if CombinedMemoryRegister.isLocalSlot slot then
    register.localRegister.dealer.Live (CombinedMemoryRegister.fromLocal slot)
  else register.globalRegister.dealer.Live (CombinedMemoryRegister.fromGlobal slot)

/-- The verbs slot that the table remembers for a slot. -/
def verbSlot (table : MemoryTable) (slot : ℕ) : ℕ :=
  ((table.memreg.lookup slot).map Memory.slot).getD Memory.invalidSlot

/-- The slots in use that are not pending and the verbs slots in use belong together one to one. -/
def Matched (table : MemoryTable) (verbs : IBVerbs n) : Prop :=
  Set.BijOn table.verbSlot
    {slot | InUse table.memreg slot ∧ table.added.contains slot = false}
    {id | InUse verbs.memreg id}

@[simp]
theorem inUse_toGlobal {Record : Type} (register : CombinedMemoryRegister Record) (slot : ℕ) :
    InUse register (toGlobal slot) ↔ register.globalRegister.dealer.Live slot := by
  simp [InUse]

@[simp]
theorem inUse_toLocal {Record : Type} (register : CombinedMemoryRegister Record) (slot : ℕ) :
    InUse register (toLocal slot) ↔ register.localRegister.dealer.Live slot := by
  simp [InUse]

@[simp]
theorem verbSlot_toGlobal (table : MemoryTable) (slot : ℕ) :
    table.verbSlot (toGlobal slot) = verbId table.memreg.globalRegister slot := by
  simp [verbSlot, verbId]

@[simp]
theorem verbSlot_toLocal (table : MemoryTable) (slot : ℕ) :
    table.verbSlot (toLocal slot) = verbId table.memreg.localRegister slot := by
  simp [verbSlot, verbId]

theorem toLocal_ne_toGlobal (left right : ℕ) : toLocal left ≠ toGlobal right := by
  simp only [toLocal, toGlobal]
  omega

/-- Every slot number is a local or a global one. -/
theorem slot_cases (slot : ℕ) : (∃ k, slot = toLocal k) ∨ ∃ k, slot = toGlobal k := by
  rcases Nat.even_or_odd' slot with ⟨k, even | odd⟩
  · exact Or.inr ⟨k, even⟩
  · exact Or.inl ⟨k, odd⟩

theorem inUse_eq_union {Record : Type} (register : CombinedMemoryRegister Record) :
    {slot | InUse register slot} =
      toLocal '' {slot | register.localRegister.dealer.Live slot} ∪
        toGlobal '' {slot | register.globalRegister.dealer.Live slot} := by
  ext slot
  rcases slot_cases slot with ⟨k, rfl⟩ | ⟨k, rfl⟩
  · simp [toLocal_injective.eq_iff, (toLocal_ne_toGlobal _ _).symm]
  · simp [toGlobal_injective.eq_iff, toLocal_ne_toGlobal]

/-- Pending slots are global ones. -/
theorem Consistent.notMem_toLocal {table : MemoryTable} {verbs : IBVerbs n}
    (consistent : Consistent table verbs) (slot : ℕ) : toLocal slot ∉ table.added.elements := by
  intro member
  rcases consistent.waiting.inUse _ member with ⟨other, same, _⟩
  exact toLocal_ne_toGlobal slot other same

theorem Consistent.contains_eq_false {table : MemoryTable} {verbs : IBVerbs n}
    (consistent : Consistent table verbs) (slot : ℕ) :
    table.added.contains slot = false ↔ slot ∉ table.added.elements := by
  rw [← consistent.added.contains_iff_mem consistent.fromZero, Bool.not_eq_true]

/-- The slots of both kinds that are not pending. -/
theorem Consistent.attached_eq_union {table : MemoryTable} {verbs : IBVerbs n}
    (consistent : Consistent table verbs) :
    {slot | InUse table.memreg slot ∧ table.added.contains slot = false} =
      toLocal '' {slot | table.memreg.localRegister.dealer.Live slot ∧ ¬False} ∪
        toGlobal '' {slot | table.memreg.globalRegister.dealer.Live slot ∧
          ¬toGlobal slot ∈ table.added.elements} := by
  ext slot
  rw [Set.mem_ofPred_eq, consistent.contains_eq_false]
  rcases slot_cases slot with ⟨k, rfl⟩ | ⟨k, rfl⟩
  · simp [toLocal_injective.eq_iff, (toLocal_ne_toGlobal _ _).symm, consistent.notMem_toLocal]
  · simp [toGlobal_injective.eq_iff, toLocal_ne_toGlobal]

theorem Consistent.matched {table : MemoryTable} {verbs : IBVerbs n}
    (consistent : Consistent table verbs) : Matched table verbs := by
  have locals : Set.BijOn table.verbSlot
      (toLocal '' {slot | table.memreg.localRegister.dealer.Live slot ∧ ¬False})
      (toLocal '' {id | verbs.memreg.localRegister.dealer.Live id}) := by
    rw [← Set.bijOn_comp_iff toLocal_injective.injOn]
    apply consistent.locals.bijective.congr
    intro slot _
    exact (verbSlot_toLocal table slot).symm
  have globals : Set.BijOn table.verbSlot
      (toGlobal '' {slot | table.memreg.globalRegister.dealer.Live slot ∧
        ¬toGlobal slot ∈ table.added.elements})
      (toGlobal '' {id | verbs.memreg.globalRegister.dealer.Live id}) := by
    rw [← Set.bijOn_comp_iff toGlobal_injective.injOn]
    apply consistent.waiting.linked.bijective.congr
    intro slot _
    exact (verbSlot_toGlobal table slot).symm
  rw [Matched, consistent.attached_eq_union, inUse_eq_union]
  apply locals.union globals
  rw [Set.injOn_union]
  · refine ⟨locals.injOn, globals.injOn, ?_⟩
    intro left leftMem right rightMem same
    rcases locals.mapsTo leftMem with ⟨leftId, _, leftSame⟩
    rcases globals.mapsTo rightMem with ⟨rightId, _, rightSame⟩
    exact toLocal_ne_toGlobal leftId rightId (leftSame.trans (same.trans rightSame.symm))
  · rw [Set.disjoint_left]
    rintro slot ⟨left, _, rfl⟩ ⟨right, _, same⟩
    exact toLocal_ne_toGlobal left right same.symm

section Operations

variable {table tableAfter : MemoryTable} {verbs verbsAfter : IBVerbs n}

theorem consistent_initial (device : Device n) :
    Consistent .initial (IBVerbs.initial device) where
  locals := Linked.initial toLocal _
  waiting := ⟨by simp [initial], by simp [initial], Linked.initial toGlobal _⟩
  added := SparseSet.wellFormed_reset (Nat.le_refl 0)
  fromZero := rfl
  bounded := by decide

theorem Consistent.addLocal (consistent : Consistent table verbs) {pid : Fin n} {mem size : ℕ}
    {result : Except Exn ℕ}
    (adds : table.addLocal pid verbs mem size = some ((tableAfter, verbsAfter), result)) :
    Consistent tableAfter verbsAfter := by
  simp only [MemoryTable.addLocal] at adds
  split at adds
  next => cases adds
  next registered exn registers =>
    simp only [Option.some.injEq, Prod.mk.injEq] at adds
    rcases adds with ⟨⟨rfl, rfl⟩, _⟩
    rcases regLocal_cases registers with ⟨_, same⟩ | ⟨_, _, _, _, isOk, _⟩
    · refine ⟨?_, ⟨consistent.waiting.nodup, consistent.waiting.inUse, ?_⟩, consistent.added,
        consistent.fromZero, consistent.bounded⟩
      · rw [same]
        exact consistent.locals
      · rw [same]
        exact consistent.waiting.linked
    · cases isOk
  next registered id registers =>
    rcases Option.map_eq_some_iff.mp adds with ⟨⟨slot, memreg⟩, stores, made⟩
    simp only [Prod.mk.injEq] at made
    rcases made with ⟨⟨rfl, rfl⟩, _⟩
    rcases Option.map_eq_some_iff.mp stores with ⟨⟨number, localRegister⟩, stored, same⟩
    simp only [Prod.mk.injEq] at same
    rcases same with ⟨_, rfl⟩
    rcases regLocal_cases registers with ⟨isError, _⟩ | ⟨entry, grown, change, added, isOk, moved⟩
    · cases isError
    · rw [Except.ok.injEq] at isOk
      refine ⟨?_, ⟨consistent.waiting.nodup, consistent.waiting.inUse, ?_⟩, consistent.added,
        consistent.fromZero, ?_⟩
      · rw [moved]
        exact consistent.locals.join toLocal_injective stored added isOk not_false change
      · rw [moved]
        exact consistent.waiting.linked
      · have := consistent.bounded
        simpa [MemoryTable.range, CombinedMemoryRegister.range, MemoryRegister.capacity_add stored]
          using this

theorem Consistent.addGlobal (consistent : Consistent table verbs) {mem size slot : ℕ}
    (adds : table.addGlobal mem size = some (tableAfter, slot)) :
    Consistent tableAfter verbs := by
  simp only [MemoryTable.addGlobal] at adds
  split at adds
  next => cases adds
  next number memreg stores =>
    split at adds
    next range =>
      rw [Option.some.injEq, Prod.mk.injEq] at adds
      rcases adds with ⟨rfl, rfl⟩
      rcases Option.map_eq_some_iff.mp stores with ⟨⟨global, globalRegister⟩, stored, same⟩
      simp only [Prod.mk.injEq] at same
      rcases same with ⟨rfl, rfl⟩
      rcases consistent.added.mem_insert range.1 range.2 with ⟨inserted, members⟩
      simp only [consistent.fromZero, Nat.sub_zero] at members
      have dealt := MemoryRegister.add_cases stored
      have tableWellFormed := consistent.waiting.linked.tableWellFormed
      refine ⟨consistent.locals, ⟨inserted.nodup_elements, ?_, ?_⟩, inserted, ?_, ?_⟩
      · intro i member
        simp only [dealt.2.1, tableWellFormed.dealer.live_deal, ← dealt.1]
        rcases (members i).mp member with old | rfl
        · rcases consistent.waiting.inUse i old with ⟨other, rfl, live⟩
          exact ⟨other, rfl, Or.inl live⟩
        · exact ⟨global, rfl, Or.inr rfl⟩
      · apply consistent.waiting.linked.store stored
        intro other
        rw [members, toGlobal_injective.eq_iff]
      · rw [(SparseSet.range_insert _ _).1]
        exact consistent.fromZero
      · have := consistent.bounded
        simpa [MemoryTable.range, CombinedMemoryRegister.range, MemoryRegister.capacity_add stored]
          using this
    next => cases adds

/-- Removing a pending slot leaves the verbs layer alone. -/
theorem Consistent.removePending (consistent : Consistent table verbs) {slot : ℕ}
    (pending : slot ∈ table.added.elements) {memreg : CombinedMemoryRegister Memory}
    (removes : table.memreg.removeReg slot = some memreg) :
    Consistent { table with memreg := memreg, added := table.added.erase slot } verbs := by
  rcases consistent.waiting.inUse slot pending with ⟨global, rfl, live⟩
  rw [CombinedMemoryRegister.removeReg_toGlobal] at removes
  rcases Option.map_eq_some_iff.mp removes with ⟨globalRegister, removed, rfl⟩
  have present := (consistent.added.contains_iff_mem consistent.fromZero _).mpr pending
  have upper : toGlobal global ≤ table.added.max := by
    simp only [SparseSet.contains, Bool.and_eq_true, decide_eq_true_eq] at present
    exact present.1.2
  rcases consistent.added.mem_erase (by rw [consistent.fromZero]; exact Nat.zero_le _) upper with
    ⟨erased, members⟩
  simp only [consistent.fromZero, Nat.sub_zero] at members
  refine ⟨consistent.locals, ⟨erased.nodup_elements, ?_, ?_⟩, erased, ?_, ?_⟩
  · intro i member
    rcases (members i).mp member with ⟨old, differs⟩
    rcases consistent.waiting.inUse i old with ⟨other, rfl, otherLive⟩
    refine ⟨other, rfl, ?_⟩
    rw [(MemoryRegister.remove_cases removed).1, SlotDealer.live_recycle _ live]
    refine ⟨otherLive, ?_⟩
    rintro rfl
    exact differs rfl
  · apply consistent.waiting.linked.forget live pending removed
    intro other
    rw [members, toGlobal_injective.ne_iff]
  · rw [(SparseSet.range_erase _ _).1]
    exact consistent.fromZero
  · have := consistent.bounded
    simpa [MemoryTable.range, CombinedMemoryRegister.range,
      MemoryRegister.capacity_remove removed] using this

/-- Removing another slot takes its verbs slot along. -/
theorem Consistent.removeAttached (consistent : Consistent table verbs) {slot : ℕ}
    (inUse : InUse table.memreg slot) (attached : slot ∉ table.added.elements) {memory : Memory}
    (found : table.memreg.lookup slot = some memory) {memreg : CombinedMemoryRegister Memory}
    (deregisters : verbs.dereg memory.slot = some verbsAfter)
    (removes : table.memreg.removeReg slot = some memreg) :
    Consistent { table with memreg := memreg } verbsAfter := by
  rcases Option.map_eq_some_iff.mp deregisters with ⟨verbsMemreg, deregistered, rfl⟩
  rcases slot_cases slot with ⟨number, rfl⟩ | ⟨number, rfl⟩
  · rw [inUse_toLocal] at inUse
    rw [CombinedMemoryRegister.lookup_toLocal] at found
    have itsId : verbId table.memreg.localRegister number = memory.slot := by
      rw [verbId, found]
      rfl
    rcases consistent.locals.bijective.mapsTo ⟨inUse, not_false⟩ with ⟨id, _, same⟩
    rw [itsId] at same
    rw [← same, CombinedMemoryRegister.removeReg_toLocal] at deregistered
    rw [CombinedMemoryRegister.removeReg_toLocal] at removes
    rcases Option.map_eq_some_iff.mp deregistered with ⟨verbsRegister, dropped, rfl⟩
    rcases Option.map_eq_some_iff.mp removes with ⟨tableRegister, removed, rfl⟩
    refine ⟨consistent.locals.detach toLocal_injective inUse not_false (itsId.trans same.symm)
      removed dropped, ⟨consistent.waiting.nodup, consistent.waiting.inUse,
      consistent.waiting.linked⟩, consistent.added, consistent.fromZero, ?_⟩
    have := consistent.bounded
    simpa [MemoryTable.range, CombinedMemoryRegister.range,
      MemoryRegister.capacity_remove removed] using this
  · rw [inUse_toGlobal] at inUse
    rw [CombinedMemoryRegister.lookup_toGlobal] at found
    have itsId : verbId table.memreg.globalRegister number = memory.slot := by
      rw [verbId, found]
      rfl
    rcases consistent.waiting.linked.bijective.mapsTo ⟨inUse, attached⟩ with ⟨id, _, same⟩
    rw [itsId] at same
    rw [← same, CombinedMemoryRegister.removeReg_toGlobal] at deregistered
    rw [CombinedMemoryRegister.removeReg_toGlobal] at removes
    rcases Option.map_eq_some_iff.mp deregistered with ⟨verbsRegister, dropped, rfl⟩
    rcases Option.map_eq_some_iff.mp removes with ⟨tableRegister, removed, rfl⟩
    refine ⟨consistent.locals, ⟨consistent.waiting.nodup, ?_,
      consistent.waiting.linked.detach toGlobal_injective inUse attached (itsId.trans same.symm)
        removed dropped⟩, consistent.added, consistent.fromZero, ?_⟩
    · intro i member
      rcases consistent.waiting.inUse i member with ⟨other, rfl, otherLive⟩
      refine ⟨other, rfl, ?_⟩
      rw [(MemoryRegister.remove_cases removed).1, SlotDealer.live_recycle _ inUse]
      refine ⟨otherLive, ?_⟩
      rintro rfl
      exact attached member
    · have := consistent.bounded
      simpa [MemoryTable.range, CombinedMemoryRegister.range,
        MemoryRegister.capacity_remove removed] using this

theorem Consistent.remove (consistent : Consistent table verbs) {slot : ℕ}
    (inUse : InUse table.memreg slot)
    (removes : table.remove verbs slot = some (tableAfter, verbsAfter)) :
    Consistent tableAfter verbsAfter := by
  simp only [MemoryTable.remove] at removes
  split at removes
  next present =>
    rcases Option.map_eq_some_iff.mp removes with ⟨memreg, removed, made⟩
    rw [Prod.mk.injEq] at made
    rcases made with ⟨rfl, rfl⟩
    exact consistent.removePending
      ((consistent.added.contains_iff_mem consistent.fromZero _).mp present) removed
  next absent =>
    split at removes
    next => cases removes
    next memory found =>
      split at removes
      next => cases removes
      next deregistered deregisters =>
        rcases Option.map_eq_some_iff.mp removes with ⟨memreg, removed, made⟩
        rw [Prod.mk.injEq] at made
        rcases made with ⟨rfl, rfl⟩
        apply consistent.removeAttached inUse _ found deregisters removed
        rw [← consistent.added.contains_iff_mem consistent.fromZero]
        exact absent

/-- Reserving for both kinds of slots stops where the first one throws. -/
theorem reserve_combined_cases {Record : Type} (globalFaults localFaults : ReserveFaults)
    (record : Record) (register : CombinedMemoryRegister Record) (size : ℕ) :
    (register.reserve globalFaults localFaults record size).1 =
        ⟨register.localRegister, (register.globalRegister.reserve globalFaults record size).1⟩ ∨
      (register.reserve globalFaults localFaults record size).1 =
        ⟨(register.localRegister.reserve localFaults record size).1,
          (register.globalRegister.reserve globalFaults record size).1⟩ := by
  unfold CombinedMemoryRegister.reserve
  split
  next throws => exact Or.inl (by rw [throws])
  next fits => exact Or.inr (by rw [fits])

theorem capacity_le_reserve {Record : Type} (faults : ReserveFaults) (record : Record)
    (register : MemoryRegister Record) {size : ℕ} (grows : register.capacity ≤ size) :
    register.capacity ≤ (register.reserve faults record size).1.capacity := by
  simp only [MemoryRegister.capacity] at *
  simp only [MemoryRegister.reserve]
  split_ifs <;>
    simp only [List.length_append, List.length_replicate, List.length_take] <;> omega

/-- The memory table after its registers were reserved, with or without success, when the set of
pending slots may have got another range. -/
theorem Consistent.reserveSlots (consistent : Consistent table verbs)
    (globalFaults localFaults : ReserveFaults) {size : ℕ} {added : SparseSet}
    (wellFormed : added.WellFormed) (sameElements : added.elements = table.added.elements)
    (fromZero : added.min = 0)
    (bounded : added.max ≤ (table.memreg.reserve globalFaults localFaults .null size).1.range) :
    Consistent { table with
      memreg := (table.memreg.reserve globalFaults localFaults .null size).1
      added := added } verbs := by
  have linked := consistent.waiting.linked.reserveTable globalFaults Memory.null size
  rw [← sameElements] at linked
  have inUse : ∀ i ∈ added.elements, ∃ slot, i = toGlobal slot ∧
      (table.memreg.globalRegister.reserve globalFaults Memory.null size).1.dealer.Live slot := by
    intro i member
    rw [MemoryRegister.dealer_reserve]
    exact consistent.waiting.inUse i (sameElements ▸ member)
  have nodup : added.elements.Nodup := sameElements ▸ consistent.waiting.nodup
  rcases reserve_combined_cases globalFaults localFaults Memory.null table.memreg size with
    same | same
  · rw [same] at bounded ⊢
    exact ⟨consistent.locals, ⟨nodup, inUse, linked⟩, wellFormed, fromZero, bounded⟩
  · rw [same] at bounded ⊢
    exact ⟨consistent.locals.reserveTable localFaults Memory.null size, ⟨nodup, inUse, linked⟩,
      wellFormed, fromZero, bounded⟩

theorem Consistent.reserveTable (consistent : Consistent table verbs)
    (globalFaults localFaults : ReserveFaults) {size : ℕ} (grows : table.range ≤ 2 * size + 1) :
    Consistent { table with
      memreg := (table.memreg.reserve globalFaults localFaults .null size).1 } verbs := by
  have globalGrows : table.memreg.globalRegister.capacity ≤ size := by
    simp only [MemoryTable.range, CombinedMemoryRegister.range] at grows
    omega
  have localGrows : table.memreg.localRegister.capacity ≤ size := by
    simp only [MemoryTable.range, CombinedMemoryRegister.range] at grows
    omega
  have globalCapacity := capacity_le_reserve globalFaults Memory.null _ globalGrows
  have localCapacity := capacity_le_reserve localFaults Memory.null _ localGrows
  have bounded := consistent.bounded
  simp only [MemoryTable.range, CombinedMemoryRegister.range] at bounded
  apply consistent.reserveSlots _ _ consistent.added rfl consistent.fromZero
  rcases reserve_combined_cases globalFaults localFaults Memory.null table.memreg size with
    same | same <;>
    rw [same] <;> simp only [CombinedMemoryRegister.range] <;> omega

theorem Consistent.resizeAdded (consistent : Consistent table verbs) :
    Consistent { table with added := table.added.resize table.memreg.range } verbs := by
  rcases consistent.added.resize consistent.bounded with ⟨resized, sameElements, sameMin, newMax⟩
  simp only [MemoryTable.range] at resized sameElements sameMin newMax
  have waiting := consistent.waiting
  refine ⟨consistent.locals, ?_, resized, sameMin.trans consistent.fromZero, newMax.le⟩
  rw [sameElements]
  exact ⟨waiting.nodup, waiting.inUse, waiting.linked⟩

theorem Consistent.resizeVerbs (consistent : Consistent table verbs)
    (globalFaults localFaults : ReserveFaults) (size : ℕ) :
    Consistent table (verbs.resizeMemreg globalFaults localFaults size).1 := by
  have waiting := consistent.waiting
  have localVerbs := consistent.locals.reserveVerbs localFaults (.null n) size
  have globalVerbs := waiting.linked.reserveVerbs globalFaults (.null n) size
  unfold IBVerbs.resizeMemreg
  split
  next => exact consistent
  next =>
    split
    next => exact consistent
    next =>
      simp only
      rcases reserve_combined_cases globalFaults localFaults (.null n) verbs.memreg size with
        same | same
      all_goals
        refine ⟨?_, ⟨waiting.nodup, waiting.inUse, ?_⟩, consistent.added, consistent.fromZero,
          consistent.bounded⟩ <;> rw [same]
      · exact consistent.locals
      · exact globalVerbs
      · exact localVerbs
      · exact globalVerbs

theorem Consistent.reserve (consistent : Consistent table verbs) (faults : Faults) {size : ℕ}
    (grows : table.range ≤ 2 * size + 1) :
    Consistent (table.reserve faults verbs size).1.1 (table.reserve faults verbs size).1.2 := by
  have grown := consistent.reserveTable faults.tableGlobal faults.tableLocal grows
  have widened := grown.resizeAdded
  have resized := widened.resizeVerbs faults.verbsGlobal faults.verbsLocal size
  unfold MemoryTable.reserve
  split
  next memreg exn throws =>
    rw [throws] at grown
    exact grown
  next memreg fits =>
    rw [fits] at grown widened resized
    split
    next => exact grown
    next =>
      simp only
      split
      next after exn throws =>
        rw [throws] at resized
        exact resized
      next after succeeds =>
        rw [succeeds] at resized
        exact ⟨resized.locals, ⟨resized.waiting.nodup, resized.waiting.inUse,
          resized.waiting.linked⟩, resized.added, resized.fromZero, resized.bounded⟩

/-- A sync ends with no pending slot, or throws with its pending slots unchanged. -/
theorem sync_follows {answers : List (machine n).Answer} {thrown : Option Exn}
    (consistent : Consistent table verbs)
    (follows : Follows (table.sync verbs) answers ((tableAfter, verbsAfter), thrown)) :
    Consistent tableAfter verbsAfter ∧ (∀ answer ∈ answers, reports answer = false) ∨
      ∃ registered remaining front last, table.added.elements = registered ++ remaining ∧
        Waiting remaining tableAfter verbsAfter ∧
        SameBesidesGlobal table verbs tableAfter verbsAfter ∧ remaining ≠ [] ∧
        answers = front ++ [last] ∧ front.length = 2 * registered.length ∧
        reports last = true := by
  unfold MemoryTable.sync at follows
  split at follows
  next =>
    rcases Follows.done_iff.mp follows with ⟨rfl, made⟩
    simp only [Prod.mk.injEq] at made
    rcases made with ⟨⟨rfl, rfl⟩, _⟩
    exact Or.inl ⟨consistent, by simp⟩
  next =>
    rcases Follows.bind_iff.mp follows with
      ⟨first, second, ⟨⟨tableMiddle, verbsMiddle⟩, stopped⟩, rfl, head, tail⟩
    rcases syncSlots_follows consistent.waiting head with
      ⟨registered, remaining, split, waiting, same, outcome⟩
    rcases outcome with ⟨rfl, rfl, quiet⟩ | ⟨exn, front, last, rfl, some, ended, count, reported⟩
    · rcases Follows.call_iff.mp tail with ⟨_, later, rfl, finished⟩
      rcases Follows.done_iff.mp finished with ⟨rfl, made⟩
      simp only [Prod.mk.injEq] at made
      rcases made with ⟨⟨rfl, rfl⟩, _⟩
      left
      have bounded := consistent.bounded
      rw [← same.added, ← same.range] at bounded
      refine ⟨⟨?_, ⟨by simp, by simp, ?_⟩, ?_, ?_, bounded⟩, ?_⟩
      · rw [same.localSlots, same.localVerbs]
        exact consistent.locals
      · simp only [SparseSet.elements_clear]
        exact waiting.linked
      · rw [same.added]
        exact consistent.added.clear
      · rw [same.added]
        exact consistent.fromZero
      · intro answer member
        rcases List.mem_append.mp member with early | late
        · exact quiet answer early
        · rw [List.mem_singleton.mp late]
          rfl
    · rcases Follows.done_iff.mp tail with ⟨rfl, made⟩
      simp only [Prod.mk.injEq] at made
      rcases made with ⟨⟨rfl, rfl⟩, _⟩
      exact Or.inr ⟨registered, remaining, front, last, split, waiting, same, some,
        by rw [ended, List.append_nil], count, reported⟩

end Operations

/-- What a process does with its memory table. -/
inductive TableCall (n : ℕ) where
  | addLocal (mem size : ℕ)
  | addGlobal (mem size : ℕ)
  | remove (slot : ℕ)
  | reserve (faults : Faults) (size : ℕ)
  /-- A sync in which the collectives return the given answers. -/
  | sync (answers : List (machine n).Answer)

/-- The memory table and the verbs layer of a process. -/
structure Holding (n : ℕ) where
  table : MemoryTable
  verbs : IBVerbs n

namespace Holding

def initial (device : Device n) : Holding n := ⟨.initial, .initial device⟩

/-- A call of a process, which may throw but does not fail an assertion. -/
def Step (pid : Fin n) (before : Holding n) (call : TableCall n) (after : Holding n) : Prop :=
  match call with
  | .addLocal mem size => ∃ result, before.table.addLocal pid before.verbs mem size =
      some ((after.table, after.verbs), result)
  | .addGlobal mem size => ∃ slot, before.table.addGlobal mem size = some (after.table, slot) ∧
      after.verbs = before.verbs
  | .remove slot => before.table.remove before.verbs slot = some (after.table, after.verbs)
  | .reserve faults size => ((before.table.reserve faults before.verbs size).1.1,
      (before.table.reserve faults before.verbs size).1.2) = (after.table, after.verbs)
  | .sync answers => ∃ thrown, Follows (before.table.sync before.verbs) answers
      ((after.table, after.verbs), thrown)

/-- Only slots in use are removed, and memory is only reserved to grow. -/
def Permitted (state : Holding n) : TableCall n → Prop
  | .remove slot => InUse state.table.memreg slot
  | .reserve _ size => state.table.range ≤ 2 * size + 1
  | .addLocal _ _ | .addGlobal _ _ | .sync _ => True

/-- No refusal is reported after the first pending slot of a sync. -/
def RefusedAtOnce : TableCall n → Prop
  | .sync answers => ∀ answer ∈ answers.tail, reports answer = false
  | .addLocal _ _ | .addGlobal _ _ | .remove _ | .reserve _ _ => True

theorem consistent_step {pid : Fin n} {before after : Holding n} {call : TableCall n}
    (consistent : Consistent before.table before.verbs) (permitted : before.Permitted call)
    (atOnce : RefusedAtOnce call) (taken : Step pid before call after) :
    Consistent after.table after.verbs := by
  cases call with
  | addLocal mem size =>
      rcases taken with ⟨result, adds⟩
      exact consistent.addLocal adds
  | addGlobal mem size =>
      rcases taken with ⟨slot, adds, sameVerbs⟩
      rw [sameVerbs]
      exact consistent.addGlobal adds
  | remove slot => exact consistent.remove permitted taken
  | reserve faults size =>
      have reserved := consistent.reserve faults permitted
      simp only [Step, Prod.mk.injEq] at taken
      rw [taken.1, taken.2] at reserved
      exact reserved
  | sync answers =>
      rcases taken with ⟨thrown, follows⟩
      rcases sync_follows consistent follows with ⟨kept, _⟩ |
        ⟨registered, remaining, front, last, split, waiting, same, _, ended, count, reported⟩
      · exact kept
      · -- the refusal is reported in the first collective, so no slot was registered
        have noneRegistered : registered = [] := by
          rcases front with _ | ⟨first, rest⟩
          · rw [← List.length_eq_zero_iff]
            simp only [List.length_nil] at count
            omega
          · have late : last ∈ answers.tail := by
              rw [ended, List.cons_append, List.tail_cons]
              exact List.mem_append_right _ List.mem_cons_self
            rw [atOnce last late] at reported
            cases reported
        subst noneRegistered
        rw [List.nil_append] at split
        subst split
        have bounded := consistent.bounded
        rw [← same.range, ← same.added] at bounded
        refine ⟨?_, by rw [same.added]; exact waiting, ?_, ?_, bounded⟩
        · rw [same.localSlots, same.localVerbs]
          exact consistent.locals
        · rw [same.added]
          exact consistent.added
        · rw [same.added]
          exact consistent.fromZero

/-- A sync that throws later than at its first pending slot breaks the correspondence: what it has
registered is still pending. -/
theorem not_matched_of_late_refusal {before after : Holding n}
    (consistent : Consistent before.table before.verbs) {answers : List (machine n).Answer}
    {thrown : Option Exn}
    (follows : Follows (before.table.sync before.verbs) answers
      ((after.table, after.verbs), thrown))
    (late : ¬RefusedAtOnce (.sync answers)) : ¬Matched after.table after.verbs := by
  rcases sync_follows consistent follows with ⟨_, quiet⟩ |
    ⟨registered, remaining, front, last, split, waiting, same, _, ended, count, _⟩
  · exact absurd (fun answer member => quiet answer (List.mem_of_mem_tail member)) late
  · intro matched
    have someRegistered : registered ≠ [] := by
      rintro rfl
      apply late
      have none : front = [] := List.length_eq_zero_iff.mp count
      rw [ended, none]
      intro answer member
      cases member
    rcases List.exists_cons_of_ne_nil someRegistered with ⟨i, rest, rfl⟩
    have pending : i ∈ before.table.added.elements := by
      rw [split]
      exact List.mem_append_left _ List.mem_cons_self
    rcases consistent.waiting.inUse i pending with ⟨slot, rfl, live⟩
    have registeredNow : toGlobal slot ∉ remaining := by
      have nodup := consistent.waiting.nodup
      rw [split, List.nodup_append] at nodup
      intro member
      exact nodup.2.2 _ List.mem_cons_self _ member rfl
    have liveAfter : after.table.memreg.globalRegister.dealer.Live slot := by
      rw [same.dealer]
      exact live
    -- its verbs slot is in use, so it belongs to a slot that is not pending
    rcases waiting.linked.bijective.mapsTo ⟨liveAfter, registeredNow⟩ with ⟨id, idLive, itsId⟩
    have idInUse : InUse after.verbs.memreg (toGlobal id) := (inUse_toGlobal _ id).mpr idLive
    rcases matched.surjOn idInUse with ⟨other, ⟨otherInUse, notPending⟩, otherId⟩
    rw [same.added, consistent.contains_eq_false] at notPending
    rcases slot_cases other with ⟨number, rfl⟩ | ⟨number, rfl⟩
    · have locals := consistent.locals
      rw [← same.localSlots, ← same.localVerbs] at locals
      rw [inUse_toLocal] at otherInUse
      rw [verbSlot_toLocal] at otherId
      rcases locals.bijective.mapsTo ⟨otherInUse, not_false⟩ with ⟨localId, _, itsLocalId⟩
      exact toLocal_ne_toGlobal localId id (itsLocalId.trans otherId)
    · rw [inUse_toGlobal] at otherInUse
      rw [verbSlot_toGlobal] at otherId
      have notRemaining : toGlobal number ∉ remaining := by
        intro member
        apply notPending
        rw [split]
        exact List.mem_append_right _ member
      have sameSlot := waiting.linked.bijective.injOn ⟨otherInUse, notRemaining⟩
        ⟨liveAfter, registeredNow⟩ (otherId.trans itsId)
      exact notPending (sameSlot ▸ pending)

def Sound (state : Holding n) : Prop := Consistent state.table state.verbs

theorem sound_initial (device : Device n) : Sound (initial device) := consistent_initial device

theorem consistent_run {pid : Fin n} {device : Device n} {state : Holding n}
    (run : Transition.Reachable (Step pid)
      (fun state call => state.Permitted call ∧ RefusedAtOnce call) (initial device) state) :
    Consistent state.table state.verbs := by
  apply run.invariant (sound_initial device)
  intro before call after consistent permitted taken
  exact consistent_step consistent permitted.1 permitted.2 taken

/-- The slots of the verbs layer match the slots in use that are not pending in every state that is
reached when syncs throw at their first pending slot only; the next sync keeps this up exactly if
it does so too. -/
theorem verbs_match_slots {pid : Fin n} {device : Device n} {state : Holding n}
    (run : Transition.Reachable (Step pid)
      (fun state call => state.Permitted call ∧ RefusedAtOnce call) (initial device) state) :
    Matched state.table state.verbs ∧
      ∀ answers after, Step pid state (.sync answers) after →
        (Matched after.table after.verbs ↔ RefusedAtOnce (.sync answers)) := by
  have consistent := consistent_run run
  refine ⟨consistent.matched, ?_⟩
  intro answers after taken
  constructor
  · intro matched
    by_contra late
    rcases taken with ⟨thrown, follows⟩
    exact not_matched_of_late_refusal consistent follows late matched
  · intro atOnce
    have permitted : state.Permitted (.sync answers) := trivial
    exact (consistent_step consistent permitted atOnce taken).matched

/-- A device that registers one area only. -/
def oneArea : Device 1 :=
  { Device.generous 1 with regMr := fun k => if k = 0 then some ⟨0, 0⟩ else none }

/-- Room for two slots is reserved. -/
def reservedTwo : Holding 1 :=
  let reserved := MemoryTable.initial.reserve .none (IBVerbs.initial oneArea) 2
  ⟨reserved.1.1, reserved.1.2⟩

def pendingOne : Holding 1 :=
  ⟨((reservedTwo.table.addGlobal 100 8).map Prod.fst).getD .initial, reservedTwo.verbs⟩

def pendingTwo : Holding 1 :=
  ⟨((pendingOne.table.addGlobal 200 8).map Prod.fst).getD .initial, reservedTwo.verbs⟩

theorem pendingTwo_reachable {rule : Holding 1 → TableCall 1 → Prop}
    (reserves : rule (initial oneArea) (.reserve .none 2))
    (addsFirst : rule reservedTwo (.addGlobal 100 8))
    (addsSecond : rule pendingOne (.addGlobal 200 8)) :
    Transition.Reachable (Step 0) rule (initial oneArea) pendingTwo := by
  have reserved : Transition.Reachable (Step 0) rule (initial oneArea) reservedTwo :=
    Transition.Reachable.refl.tail reserves rfl
  have first : Transition.Reachable (Step 0) rule (initial oneArea) pendingOne :=
    reserved.tail addsFirst ⟨0, rfl, rfl⟩
  exact first.tail addsSecond ⟨2, rfl, rfl⟩

theorem initial_permits_reserve : (initial oneArea).Permitted (.reserve .none 2) :=
  show MemoryTable.initial.range ≤ 2 * 2 + 1 by decide

theorem verbs_match_slots_pending : Matched pendingTwo.table pendingTwo.verbs ∧
    ∀ answers after, Step 0 pendingTwo (.sync answers) after →
      (Matched after.table after.verbs ↔ RefusedAtOnce (.sync answers)) :=
  verbs_match_slots (pendingTwo_reachable ⟨initial_permits_reserve, trivial⟩ ⟨trivial, trivial⟩
    ⟨trivial, trivial⟩)

/-- The sync of two slots, of which the device refuses the second one. -/
def lateRefusal : List (machine 1).Answer :=
  [⟨.allreduceOr false, false⟩,
    ⟨.allgatherRegistration ⟨100, 8, 0, 0⟩, fun _ => ⟨100, 8, 0, 0⟩⟩, ⟨.allreduceAnd true, true⟩]

/-- After a sync that throws at its second slot, the first slot is registered with the verbs layer
and still pending. -/
theorem late_refusal_unmatched : ∃ state,
    Transition.Reachable (Step 0) Permitted (initial oneArea) state ∧
      ¬Matched state.table state.verbs := by
  have throws : ∃ after : Holding 1, Follows (pendingTwo.table.sync pendingTwo.verbs) lateRefusal
      ((after.table, after.verbs), some .exception) :=
    ⟨⟨_, _⟩, .call (.call (.call (.done _)))⟩
  rcases throws with ⟨after, follows⟩
  have consistent := consistent_run (pendingTwo_reachable ⟨initial_permits_reserve, trivial⟩
    ⟨trivial, trivial⟩ ⟨trivial, trivial⟩)
  refine ⟨after, ?_, not_matched_of_late_refusal consistent follows ?_⟩
  · have pending : Transition.Reachable (Step 0) Permitted (initial oneArea) pendingTwo :=
      pendingTwo_reachable initial_permits_reserve trivial trivial
    have permitted : pendingTwo.Permitted (.sync lateRefusal) := trivial
    exact pending.tail permitted ⟨_, follows⟩
  · intro atOnce
    have quiet := atOnce ⟨.allreduceAnd true, true⟩ (by simp [lateRefusal])
    cases quiet

end Holding

end MemoryTable

end Talpf
