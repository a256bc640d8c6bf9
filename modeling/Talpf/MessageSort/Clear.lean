import Talpf.MessageSort.Priority
import Talpf.MessageSort.Queries

/-!
# Clearing

`clear` wipes the window of each region, but only if the window has more than
one entry.  The mark of a single pending grain survives, outside of any window,
and a later write with a smaller message number is refused in its place.
-/

namespace Talpf

namespace Writes

/-- Arrays without marks differ in nothing but their lengths. -/
theorem Idle.eq {first second : Writes} (idle : first.Idle) (idleToo : second.Idle)
    (length : first.memory.length = second.memory.length) : first = second := by
  have memory : first.memory = second.memory := by
    apply SparseSet.eq_of_getD length
    intro i _
    exact (idle.unmarked i).trans (idleToo.unmarked i).symm
  rcases first with ⟨min, max, entries⟩
  rcases second with ⟨otherMin, otherMax, others⟩
  rw [mk.injEq]
  exact ⟨idle.min.trans idleToo.min.symm, idle.max.trans idleToo.max.symm, memory⟩

/-- What `clear` leaves behind. -/
structure Wiped (writes after : Writes) : Prop where
  clear : writes.clear = some after
  min : after.min = sizeMax
  max : after.max = 0
  length : after.memory.length = writes.memory.length
  label : ∀ i, after.label i = if writes.min = writes.max then writes.label i else 0

/-- A window of one entry is not wiped. -/
theorem Enclosed.clear {writes : Writes} (enclosed : writes.Enclosed) :
    ∃ after, Wiped writes after := by
  rcases enclosed.window with idle | spanning
  · have nothing : ¬writes.min < writes.max := by
      rw [idle.min, idle.max]
      exact Nat.not_lt_zero _
    refine ⟨_, if_neg nothing, rfl, rfl, rfl, ?_⟩
    intro i
    have unmarked := idle.unmarked i
    split
    next => rfl
    next => exact unmarked
  · have bounded := spanning.bounded
    by_cases wide : writes.min < writes.max
    · refine ⟨_, (if_pos wide).trans (if_pos (by omega)), rfl, rfl, List.length_mapIdx, ?_⟩
      intro i
      rw [if_neg (Nat.ne_of_lt wide)]
      have window := spanning.window i
      simp only [Writes.label, List.getD_eq_getElem?_getD, List.getElem?_mapIdx] at window ⊢
      cases entry : writes.memory[i]? with
      | none => rfl
      | some mark =>
          rw [entry, Option.getD_some] at window
          simp only [Option.map_some, Option.getD_some]
          split
          next => rfl
          next outside =>
            by_contra marked
            exact outside (window marked)
    · refine ⟨_, if_neg wide, rfl, rfl, rfl, ?_⟩
      intro i
      have single : writes.min = writes.max := by
        have := spanning.ordered
        omega
      rw [if_pos single]
      rfl

/-- A single pending grain. -/
def Stale (writes : Writes) : Prop := writes.min = writes.max ∧ writes.label writes.min ≠ 0

theorem Wiped.idle_iff {writes after : Writes} (wiped : Wiped writes after)
    (enclosed : writes.Enclosed) : after.Idle ↔ ¬writes.Stale := by
  constructor
  · rintro idle ⟨single, marked⟩
    have kept := wiped.label writes.min
    rw [if_pos single, idle.unmarked] at kept
    exact marked kept.symm
  · intro fine
    refine ⟨wiped.min, wiped.max, ?_⟩
    intro i
    rw [wiped.label]
    split
    next single =>
      by_contra marked
      rcases enclosed.window with idle | spanning
      · exact marked (idle.unmarked i)
      · have := spanning.window i marked
        have here : i = writes.min := by omega
        rw [here] at marked
        exact fine ⟨single, marked⟩
    next => rfl

end Writes

namespace MessageSort

open Observation

theorem clearAll_spec {arrays : List Writes} (enclosed : ∀ array ∈ arrays, array.Enclosed) :
    ∃ cleared, clearAll arrays = some cleared ∧ List.Forall₂ Writes.Wiped arrays cleared := by
  induction arrays with
  | nil => exact ⟨[], rfl, List.Forall₂.nil⟩
  | cons array rest ih =>
      rcases (enclosed array List.mem_cons_self).clear with ⟨after, wiped⟩
      rcases ih (fun other member => enclosed other (List.mem_cons_of_mem _ member)) with
        ⟨cleared, clears, all⟩
      refine ⟨after :: cleared, ?_, List.Forall₂.cons wiped all⟩
      simp only [clearAll, wiped.clear, Option.bind_some, clears, Option.map_some]

/-- Slots are registered and forgotten, and nothing is written. -/
def Recorded.Registering (state : Recorded) : Call → Prop
  | .setSlotRange range => state.sort.memslots.length ≤ range
  | .addRegister id base size =>
      id < state.sort.memslots.length ∧ 0 < size ∧ base + size ≤ sizeMax
  | .delRegister id => id < state.sort.memslots.length
  | .pushWrite _ | .popWrite => False

/-- The table never received a write. -/
structure Fresh (sort : MessageSort) : Prop where
  sound : sort.Sound
  unmarked : sort.Unmarked
  clean : sort.dirty.elements = []

theorem fresh_initial (msgGrainPower : ℕ) : (initial msgGrainPower).Fresh where
  sound := sound_initial msgGrainPower
  unmarked := unmarked_initial msgGrainPower
  clean := SparseSet.elements_reset 0 0

theorem Fresh.run {state : Recorded} (fresh : state.sort.Fresh) {call : Call}
    (registering : state.Registering call) {after : MessageSort}
    (taken : call.run state.sort = some after) : after.Fresh := by
  cases call with
  | setSlotRange range =>
      rw [← Option.some.inj taken]
      exact ⟨fresh.sound.setSlotRange registering, fresh.unmarked, fresh.clean⟩
  | addRegister id base size =>
      rcases registering with ⟨inRange, nonempty, address⟩
      rcases fresh.sound.addRegister fresh.unmarked inRange nonempty address with
        ⟨found, adds, sound, _⟩
      rcases fresh.sound.tables.addRegister fresh.unmarked inRange nonempty address with
        ⟨same, addsToo, registers⟩
      have taken : state.sort.addRegister id base size = some after := taken
      rw [taken, Option.some.injEq] at adds addsToo
      rw [← adds] at sound
      rw [← addsToo] at registers
      exact ⟨sound, registers.unmarked, registers.elements.trans fresh.clean⟩
  | delRegister id =>
      rcases fresh.sound.delRegister registering with ⟨found, deletes, sound, _⟩
      have taken : state.sort.delRegister id = some after := taken
      rw [taken, Option.some.injEq] at deletes
      rw [← deletes] at sound
      have inRange : id < state.sort.memslots.length ∧ id < state.sort.slotToRegion.length :=
        ⟨registering, by rw [← fresh.sound.tables.slots]; exact registering⟩
      rw [MessageSort.delRegister, if_pos inRange, Option.some.injEq] at taken
      refine ⟨sound, ?_, ?_⟩
      · rw [← taken]
        exact fresh.unmarked
      · rw [← taken]
        exact fresh.clean
  | pushWrite write => exact registering.elim
  | popWrite => exact registering.elim

/-- Writes are pushed and popped. -/
def Recorded.Writing (state : Recorded) : Call → Prop
  | .setSlotRange _ | .addRegister _ _ _ | .delRegister _ => False
  | .pushWrite write => state.sort.Placed write
  | .popWrite => True

/-- What a table that never received a write has become.  Marks are only found where a slot
reaches. -/
structure Written (fresh sort : MessageSort) : Prop where
  sameTables : SameTables fresh sort
  tables : sort.Tables
  known : ∀ k ∈ sort.dirty.elements, k < sort.regions.length
  enclosed : ∀ (k : ℕ) (array : Writes), sort.writes[k]? = some array → array.Enclosed
  lengths : ∀ (k : ℕ) (array : Writes), sort.writes[k]? = some array →
    ∃ old, fresh.writes[k]? = some old ∧ array.memory.length = old.memory.length
  covered : ∀ (k : ℕ) (array : Writes) (i : ℕ), sort.writes[k]? = some array →
    array.label i ≠ 0 → ∃ slot offset : ℕ, sort.slotToRegion[slot]? = some ⟨k, offset⟩ ∧
      offset ≤ i * 2 ^ sort.msgGrainPower

theorem Fresh.written {sort : MessageSort} (fresh : sort.Fresh) : Written sort sort where
  sameTables := SameTables.refl sort
  tables := fresh.sound.tables
  known := fresh.sound.known
  enclosed k array found := (fresh.unmarked k array found).1.enclosed
  lengths _ array found := ⟨array, found, rfl⟩
  covered k array i found marked :=
    absurd ((fresh.unmarked k array found).2.unmarked i) marked

/-- One array is replaced by another one of the same size. -/
theorem Written.update {fresh sort : MessageSort} (written : Written fresh sort) {k : ℕ}
    {array changed : Writes} {dirty : SparseSet} (found : sort.writes[k]? = some array)
    (enclosed : changed.Enclosed) (length : changed.memory.length = array.memory.length)
    (covered : ∀ i, changed.label i ≠ 0 → array.label i ≠ 0 ∨
      ∃ slot offset : ℕ, sort.slotToRegion[slot]? = some ⟨k, offset⟩ ∧
        offset ≤ i * 2 ^ sort.msgGrainPower)
    (wellFormed : dirty.WellFormed)
    (range : dirty.min = sort.dirty.min ∧ dirty.max = sort.dirty.max)
    (known : ∀ j ∈ dirty.elements, j < sort.regions.length) :
    Written fresh { sort with writes := sort.writes.set k changed, dirty := dirty } := by
  refine ⟨⟨written.sameTables.memslots, written.sameTables.regions,
      written.sameTables.sortedRegions, written.sameTables.slotToRegion,
      written.sameTables.msgGrainPower⟩,
    written.tables.update found length wellFormed range, known, ?_, ?_, ?_⟩
  · intro j other otherFound
    simp only [getElem?_set_writes found] at otherFound
    split at otherFound
    next =>
      rw [← Option.some.inj otherFound]
      exact enclosed
    next => exact written.enclosed j other otherFound
  · intro j other otherFound
    simp only [getElem?_set_writes found] at otherFound
    split at otherFound
    next here =>
      rw [← Option.some.inj otherFound, length, here]
      exact written.lengths k array found
    next => exact written.lengths j other otherFound
  · intro j other i otherFound marked
    simp only [getElem?_set_writes found] at otherFound
    split at otherFound
    next here =>
      rw [← Option.some.inj otherFound] at marked
      rw [here]
      rcases covered i marked with before | reaches
      · exact written.covered k array i found before
      · exact reaches
    next => exact written.covered j other i otherFound marked

theorem Written.pushWrite {fresh sort : MessageSort} (written : Written fresh sort) {write : Write}
    (placed : sort.Placed write) : ∃ after result,
      sort.pushWrite write.msgId write.slot write.offset write.size = some (after, result) ∧
        Written fresh after := by
  have tables := written.tables
  rcases tables.marks placed with ⟨slot, r, array, offset, diff, first, count, marks⟩
  have found := marks.found
  rcases (written.enclosed _ _ found).push marks.nonempty marks.fits write.msgId with
    ⟨changed, pushes, spanning, _, memory⟩
  have length : changed.memory.length = array.memory.length := by
    rw [memory, Writes.length_mark]
  have dirtyMin := tables.dirtyMin
  have room := tables.dirtyRoom
  have numbered : r.region < sort.regions.length :=
    tables.region_lt marks.member
  rcases tables.dirty.mem_insert (x := r.region) (by omega) (by omega) with ⟨inserted, members⟩
  rw [dirtyMin, Nat.sub_zero] at members
  refine ⟨_, _, by rw [marks.push, pushes, Option.map_some], ?_⟩
  apply written.update found ⟨?_, Or.inr spanning⟩ length ?_ inserted
    (SparseSet.range_insert _ _) ?_
  · rw [length]
    exact (written.enclosed _ _ found).length
  · intro i marked
    by_cases inside : first ≤ i ∧ i < first + count
    · have aligned := marks.aligned
      have := Nat.mul_le_mul_right (2 ^ sort.msgGrainPower) inside.1
      exact Or.inr ⟨write.slot, offset, marks.refers, by omega⟩
    · rw [Writes.label, memory, Writes.getD_mark_of_outside _ _ _ _ inside] at marked
      exact Or.inl marked
  · intro j member
    rcases (members j).mp member with old | rfl
    · exact written.known j old
    · exact numbered

theorem Written.popWrite {fresh sort : MessageSort} (written : Written fresh sort) :
    ∃ popped after, sort.popWrite = some (popped, after) ∧ Written fresh after := by
  apply @popDirty_rule (Written fresh) (fun _ after => Written fresh after)
    (fun _ written _ => written) _ _ _ written
    (Nat.le_of_eq written.tables.dirty.length_elements)
  intro before j written member
  have tables := written.tables
  have roomy := tables.roomy written.known
  have bound := roomy.known j member
  have found : before.writes[j]? = some before.writes[j] := List.getElem?_eq_getElem bound
  refine ⟨_, found, ?_⟩
  generalize before.writes[j] = array at found
  rcases (written.enclosed j array found).pop with
    ⟨popped, changed, pops, enclosed, length, fewer⟩
  have covered : ∀ i, changed.label i ≠ 0 → array.label i ≠ 0 ∨
      ∃ slot offset : ℕ, before.slotToRegion[slot]? = some ⟨j, offset⟩ ∧
        offset ≤ i * 2 ^ before.msgGrainPower := fun i marked => Or.inl (fewer i marked)
  cases popped with
  | none =>
      have erased := (roomy.erase member changed).1
      refine Or.inl ⟨changed, pops, ?_, roomy.fewer member changed⟩
      apply written.update found enclosed length covered erased.wellFormed
        (SparseSet.range_erase _ _)
      intro i inErased
      have known := erased.known i inErased
      rw [List.length_set, tables.sameLength] at known
      exact known
  | some piece =>
      have numbered := written.known j member
      have region : before.regions[j]? = some before.regions[j] :=
        List.getElem?_eq_getElem numbered
      exact Or.inr ⟨_, _, _, changed, _, pops, region,
        written.update found enclosed length covered tables.dirty ⟨rfl, rfl⟩ written.known⟩

theorem Written.run {fresh : MessageSort} {state : Recorded} (written : Written fresh state.sort)
    {call : Call} (writing : state.Writing call) {after : MessageSort}
    (taken : call.run state.sort = some after) : Written fresh after := by
  cases call with
  | setSlotRange range => exact writing.elim
  | addRegister id base size => exact writing.elim
  | delRegister id => exact writing.elim
  | pushWrite write =>
      rcases written.pushWrite writing with ⟨pushed, result, pushes, afterWritten⟩
      simp only [Call.run, pushes, Option.map_some, Option.some.injEq] at taken
      rw [← taken]
      exact afterWritten
  | popWrite =>
      rcases written.popWrite with ⟨popped, left, pops, afterWritten⟩
      simp only [Call.run, pops, Option.map_some, Option.some.injEq] at taken
      rw [← taken]
      exact afterWritten

/-- What `clear` leaves behind is, up to the representation of the set of dirty regions, the table
that never received a write. -/
theorem Written.clear_twins {fresh sort cleared : MessageSort} (isFresh : fresh.Fresh)
    (written : Written fresh sort) {arrays : List Writes}
    (wiped : List.Forall₂ Writes.Wiped sort.writes arrays)
    (clears : { sort with dirty := sort.dirty.clear, writes := arrays } = cleared)
    (fine : ∀ array ∈ sort.writes, ¬array.Stale) : Twins fresh cleared := by
  have tables := written.tables
  have same := written.sameTables
  have arraysLength : arrays.length = sort.writes.length := wiped.length_eq.symm
  have freshLength : fresh.writes.length = sort.writes.length := by
    rw [tables.sameLength, isFresh.sound.tables.sameLength, same.regions]
  have arraysEq : arrays = fresh.writes := by
    apply List.ext_getElem (arraysLength.trans freshLength.symm)
    intro k bound freshBound
    have sortBound : k < sort.writes.length := by omega
    have found : sort.writes[k]? = some sort.writes[k] := List.getElem?_eq_getElem sortBound
    have itsWiped : Writes.Wiped sort.writes[k] arrays[k] := wiped.get sortBound bound
    rcases written.lengths k _ found with ⟨old, oldFound, length⟩
    rw [List.getElem?_eq_getElem freshBound, Option.some.injEq] at oldFound
    have idle := (itsWiped.idle_iff (written.enclosed k _ found)).mpr
      (fine _ (List.getElem_mem sortBound))
    have oldIdle := (isFresh.unmarked k _ (List.getElem?_eq_getElem freshBound)).2
    apply idle.eq oldIdle
    rw [oldFound]
    exact itsWiped.length.trans length
  rw [← clears]
  refine ⟨⟨sort.dirty.clear, ?_⟩, ?_, isFresh.sound.tables.roomy isFresh.sound.known, ?_⟩
  · rw [arraysEq, ← same.memslots, ← same.regions, ← same.sortedRegions, ← same.slotToRegion,
      ← same.msgGrainPower]
  · rw [isFresh.clean]
    exact (SparseSet.elements_clear _).symm
  · have roomy := tables.roomy written.known
    refine ⟨roomy.wellFormed.clear, roomy.min, ?_, by simp⟩
    rw [arraysLength]
    exact roomy.room

/-- A mark that survives refuses a message that a fresh table allows. -/
theorem Written.not_alike {fresh sort cleared : MessageSort} (isFresh : fresh.Fresh)
    (written : Written fresh sort) {arrays : List Writes}
    (wiped : List.Forall₂ Writes.Wiped sort.writes arrays)
    (clears : { sort with dirty := sort.dirty.clear, writes := arrays } = cleared)
    {array : Writes} (member : array ∈ sort.writes) (stale : array.Stale) :
    ¬Alike ask cleared fresh := by
  intro alike
  rcases List.mem_iff_getElem.mp member with ⟨k, bound, rfl⟩
  have found : sort.writes[k]? = some sort.writes[k] := List.getElem?_eq_getElem bound
  have arraysBound : k < arrays.length := by
    rw [← wiped.length_eq]
    exact bound
  have itsWiped : Writes.Wiped sort.writes[k] arrays[k] := wiped.get bound arraysBound
  generalize sort.writes[k] = array at stale found itsWiped
  rcases stale with ⟨single, marked⟩
  rcases written.covered k array _ found marked with ⟨slot, offset, refers, reaches⟩
  rcases written.lengths k array found with ⟨old, oldFound, length⟩
  have inside : array.min < array.memory.length := by
    by_contra beyond
    exact marked (Writes.label_of_length_le (by omega))
  have index : (offset + (array.min * 2 ^ sort.msgGrainPower - offset)) >>> sort.msgGrainPower =
      array.min := by
    rw [Nat.add_sub_cancel' reaches, Nat.shiftRight_eq_div_pow,
      Nat.mul_div_cancel _ (Nat.two_pow_pos _)]
  have same := written.sameTables
  have asked := alike [.canWrite 0 slot (array.min * 2 ^ sort.msgGrainPower - offset)]
  have kept := itsWiped.label array.min
  rw [if_pos single] at kept
  have refused : cleared.canWrite 0 slot (array.min * 2 ^ sort.msgGrainPower - offset) =
      some false := by
    have inside : array.min ≤ arrays[k].memory.length := by
      rw [itsWiped.length]
      omega
    rcases Writes.test_spec inside 0 with ⟨answer, tests, answerIff⟩
    have no : answer = false := by
      rw [kept, Nat.le_zero] at answerIff
      cases answer with
      | false => rfl
      | true => exact absurd (answerIff.mp rfl) marked
    rw [← clears]
    simp only [MessageSort.canWrite, refers, List.getElem?_eq_getElem arraysBound,
      Option.bind_some, index, tests, no]
  have allowed : fresh.canWrite 0 slot (array.min * 2 ^ sort.msgGrainPower - offset) =
      some true := by
    have inside : array.min ≤ old.memory.length := by omega
    rcases Writes.test_spec inside 0 with ⟨answer, tests, answerIff⟩
    have yes : answer = true :=
      answerIff.mpr (Nat.le_of_eq ((isFresh.unmarked k old oldFound).2.unmarked _))
    simp only [MessageSort.canWrite, ← same.slotToRegion, ← same.msgGrainPower, refers, oldFound,
      Option.bind_some, index, tests, yes]
  simp [answers, ask, refused, allowed] at asked

/-- `clear` restores the empty state unless a region has a single pending grain. -/
theorem clear_restores_iff {msgGrainPower : ℕ} {fresh state : Recorded}
    (registered : Transition.Reachable Recorded.Step Recorded.Registering
      (.initial msgGrainPower) fresh)
    (run : Transition.Reachable Recorded.Step Recorded.Writing fresh state) :
    ∃ cleared, state.sort.clear = some cleared ∧
      (Alike ask cleared fresh.sort ↔ ∀ array ∈ state.sort.writes,
        ¬(array.min = array.max ∧ array.label array.min ≠ 0)) := by
  have isFresh : fresh.sort.Fresh := by
    apply registered.invariant (fresh_initial msgGrainPower)
    intro before call after fresh registering taken
    exact fresh.run registering taken.1
  have written : Written fresh.sort state.sort := by
    apply run.invariant isFresh.written
    intro before call after written writing taken
    exact written.run writing taken.1
  have enclosed : ∀ array ∈ state.sort.writes, array.Enclosed := by
    intro array member
    rcases List.mem_iff_getElem?.mp member with ⟨k, found⟩
    exact written.enclosed k array found
  rcases clearAll_spec enclosed with ⟨arrays, clears, wiped⟩
  refine ⟨_, by rw [MessageSort.clear, clears, Option.map_some], ?_⟩
  constructor
  · intro alike array member stale
    exact written.not_alike isFresh wiped rfl member stale alike
  · intro fine
    exact (written.clear_twins isFresh wiped rfl fine).alike.symm

/-- A table with a slot of four grains. -/
def fourGrains : MessageSort where
  memslots := [⟨0, 16, 32⟩]
  regions := [⟨0, 16, 32⟩]
  sortedRegions := [⟨0, 16, 32⟩]
  slotToRegion := [⟨0, 0⟩]
  writes := [.create 4]
  dirty := .reset 0 0
  msgGrainPower := 3

theorem registered_fourGrains : ∃ fresh : Recorded, fresh.sort = fourGrains ∧
    Transition.Reachable Recorded.Step Recorded.Registering (.initial 3) fresh := by
  have first : Recorded.Step (.initial 3) (.setSlotRange 1)
      ⟨(MessageSort.setSlotRange .none (.initial 3) 1).1, fun _ => none⟩ := ⟨rfl, rfl⟩
  have second : Recorded.Step ⟨(MessageSort.setSlotRange .none (.initial 3) 1).1, fun _ => none⟩
      (.addRegister 0 16 32) ⟨fourGrains, (Call.addRegister 0 16 32).record fun _ => none⟩ :=
    ⟨rfl, rfl⟩
  have allowed : Recorded.Registering (.initial 3) (.setSlotRange 1) := Nat.zero_le 1
  have allowedToo : Recorded.Registering
      ⟨(MessageSort.setSlotRange .none (.initial 3) 1).1, fun _ => none⟩ (.addRegister 0 16 32) :=
    ⟨by decide, by decide, by decide⟩
  exact ⟨_, rfl, (Transition.Reachable.refl.tail allowed first).tail allowedToo second⟩

/-- A write to whole grains of the slot. -/
theorem placed_fourGrains {sort : MessageSort} (same : SameTables fourGrains sort) (msgId : ℕ)
    {offset size : ℕ} (aligned : offset ≤ 8 * (offset / 8)) (whole : 8 ≤ size)
    (inside : offset + size ≤ 32) : sort.Placed ⟨msgId, 0, offset, size⟩ := by
  have registered : sort.Registered 0 ⟨0, 16, 32⟩ := by
    refine ⟨?_, by decide⟩
    rw [same.memslots]
    rfl
  refine ⟨⟨⟨0, 16, 32⟩, registered, inside⟩, ⟨0, 16, 32⟩, offset / 8, ?_, ⟨0, 16, 32⟩, 0,
    registered, ?_, ?_, ?_⟩
  · rw [same.sortedRegions]
    exact List.mem_singleton.mpr rfl
  · rw [same.slotToRegion]
    rfl
  · rw [same.msgGrainPower, Nat.shiftLeft_eq]
    show 16 + offset ≤ 16 + offset / 8 * 8
    omega
  · rw [same.msgGrainPower, Nat.shiftLeft_eq]
    show 16 + (offset / 8 + 1) * 8 ≤ 16 + offset + size
    omega

/-- A write of two grains is wiped. -/
theorem clear_restores_iff_two : ∃ pushed cleared offset size,
    fourGrains.pushWrite 1 0 8 16 = some (pushed, offset, size) ∧
      pushed.clear = some cleared ∧ Alike ask cleared fourGrains := by
  rcases registered_fourGrains with ⟨fresh, same, registered⟩
  have placed : fresh.Writing (.pushWrite ⟨1, 0, 8, 16⟩) := by
    show fresh.sort.Placed _
    rw [same]
    exact placed_fourGrains (SameTables.refl _) 1 (by decide) (by decide) (by decide)
  have run : Transition.Reachable Recorded.Step Recorded.Writing fresh
      ⟨⟨[⟨0, 16, 32⟩], [⟨0, 16, 32⟩], [⟨0, 16, 32⟩], [⟨0, 0⟩], [⟨1, 2, [0, 2, 2, 0]⟩],
        ⟨0, 0, 1, [0], [0]⟩, 3⟩, fresh.live⟩ := by
    apply Transition.Reachable.tail Transition.Reachable.refl placed
    refine ⟨?_, rfl⟩
    rw [same]
    rfl
  rcases clear_restores_iff registered run with ⟨cleared, clears, alikeIff⟩
  rw [same] at alikeIff
  have wide : ∀ array ∈ [(⟨1, 2, [0, 2, 2, 0]⟩ : Writes)],
      ¬(array.min = array.max ∧ array.label array.min ≠ 0) := by
    decide
  exact ⟨_, cleared, _, _, rfl, clears, alikeIff.mpr wide⟩

/-- After a write of one grain with message number 1, `clear` and a write of the same grain with
message number 0, the popped write has message number 1. -/
theorem not_clear_restores : ¬∀ (msgGrainPower : ℕ) (fresh state : Recorded),
    Transition.Reachable Recorded.Step Recorded.Registering (.initial msgGrainPower) fresh →
      Transition.Reachable Recorded.Step Recorded.Writing fresh state →
        ∃ cleared, state.sort.clear = some cleared ∧ Alike ask cleared fresh.sort := by
  intro restores
  rcases registered_fourGrains with ⟨fresh, same, registered⟩
  have placed : fresh.Writing (.pushWrite ⟨1, 0, 0, 8⟩) := by
    show fresh.sort.Placed _
    rw [same]
    exact placed_fourGrains (SameTables.refl _) 1 (by decide) (by decide) (by decide)
  have run : Transition.Reachable Recorded.Step Recorded.Writing fresh
      ⟨⟨[⟨0, 16, 32⟩], [⟨0, 16, 32⟩], [⟨0, 16, 32⟩], [⟨0, 0⟩], [⟨0, 0, [2, 0, 0, 0]⟩],
        ⟨0, 0, 1, [0], [0]⟩, 3⟩, fresh.live⟩ := by
    apply Transition.Reachable.tail Transition.Reachable.refl placed
    refine ⟨?_, rfl⟩
    rw [same]
    rfl
  rcases restores 3 fresh _ registered run with ⟨cleared, clears, alike⟩
  have stale : answers ask ⟨[⟨0, 16, 32⟩], [⟨0, 16, 32⟩], [⟨0, 16, 32⟩], [⟨0, 0⟩],
      [⟨sizeMax, 0, [2, 0, 0, 0]⟩], ⟨0, 0, 0, [0], [0]⟩, 3⟩ [.pushWrite ⟨0, 0, 0, 8⟩, .popWrite] =
        [some (.pushed 0 8), some (.popped (some ⟨1, 16, 8⟩))] := by
    decide
  have expected : answers ask fourGrains [.pushWrite ⟨0, 0, 0, 8⟩, .popWrite] =
      [some (.pushed 0 8), some (.popped (some ⟨0, 16, 8⟩))] := by
    decide
  have clears : _ = cleared := Option.some.inj clears
  have asked := alike [.pushWrite ⟨0, 0, 0, 8⟩, .popWrite]
  rw [same, expected, ← clears] at asked
  have equal : [some (Answer.pushed 0 8), some (.popped (some ⟨1, 16, 8⟩))] =
      [some (.pushed 0 8), some (.popped (some ⟨0, 16, 8⟩))] := stale.symm.trans asked
  exact absurd equal (by decide)

end MessageSort

end Talpf
