import Mathlib.Data.Set.Card
import Talpf.Library.Transition
import Talpf.MessageSort.Regions

/-!
# Runs of registrations and writes

Slots are registered and forgotten while there are no marks; writes are pushed
and popped in any order.  Along every such run the tables agree, so that slots
that overlap or touch always refer to the same region.
-/

namespace Talpf

namespace MessageSort

/-- A write to a slot. -/
structure Write where
  msgId : ℕ
  slot : ℕ
  offset : ℕ
  size : ℕ
deriving DecidableEq, Repr

/-- A write covers a whole grain of the region of its slot. -/
def Covers (sort : MessageSort) (write : Write) (r : Region) (k : ℕ) : Prop :=
  r ∈ sort.sortedRegions ∧ ∃ slot offset, sort.Registered write.slot slot ∧
    sort.slotToRegion[write.slot]? = some ⟨r.region, offset⟩ ∧
    slot.base + write.offset ≤ r.base + (k <<< sort.msgGrainPower) ∧
    r.base + ((k + 1) <<< sort.msgGrainPower) ≤ slot.base + write.offset + write.size

/-- A write to the inside of a registered slot, which covers at least one grain. -/
structure Valid (sort : MessageSort) (write : Write) : Prop where
  small : write.msgId < 2 ^ 31
  inside : ∃ slot, sort.Registered write.slot slot ∧ write.offset + write.size ≤ slot.size
  covers : ∃ r k, sort.Covers write r k

/-- The same for a write with any message number. -/
structure Placed (sort : MessageSort) (write : Write) : Prop where
  inside : ∃ slot, sort.Registered write.slot slot ∧ write.offset + write.size ≤ slot.size
  covers : ∃ r k, sort.Covers write r k

theorem Valid.placed {sort : MessageSort} {write : Write} (valid : sort.Valid write) :
    sort.Placed write :=
  ⟨valid.inside, valid.covers⟩

inductive Call where
  | setSlotRange (range : ℕ)
  | addRegister (id base size : ℕ)
  | delRegister (id : ℕ)
  | pushWrite (write : Write)
  | popWrite
deriving DecidableEq, Repr

/-- `none` is a failed assertion or an access beyond an array. -/
def Call.run (sort : MessageSort) : Call → Option MessageSort
  | .setSlotRange range => some (MessageSort.setSlotRange .none sort range).1
  | .addRegister id base size => sort.addRegister id base size
  | .delRegister id => sort.delRegister id
  | .pushWrite write =>
      (sort.pushWrite write.msgId write.slot write.offset write.size).map Prod.fst
  | .popWrite => sort.popWrite.map Prod.snd

/-- The slots that are live after a call. -/
def Call.record (live : ℕ → Option Slot) : Call → ℕ → Option Slot
  | .addRegister id base size => fun other =>
      if other = id then some ⟨id, base, size⟩ else live other
  | .delRegister id => fun other => if other = id then none else live other
  | .setSlotRange _ | .pushWrite _ | .popWrite => live

/-- The tables beside a record of the live slots. -/
structure Recorded where
  sort : MessageSort
  live : ℕ → Option Slot

def Recorded.initial (msgGrainPower : ℕ) : Recorded := ⟨.initial msgGrainPower, fun _ => none⟩

def Recorded.Step (before : Recorded) (call : Call) (after : Recorded) : Prop :=
  call.run before.sort = some after.sort ∧ after.live = call.record before.live

/-- The range of slots grows, and ranges of memory are registered while there are no marks. -/
def Recorded.Permitted (state : Recorded) : Call → Prop
  | .setSlotRange range => state.sort.memslots.length ≤ range
  | .addRegister id base size =>
      id < state.sort.memslots.length ∧ 0 < size ∧ base + size ≤ sizeMax ∧ state.sort.Unmarked
  | .delRegister id => id < state.sort.memslots.length
  | .pushWrite write => state.sort.Valid write
  | .popWrite => True

/-- The states that permitted calls lead to. -/
def Recorded.Reachable (msgGrainPower : ℕ) : Recorded → Prop :=
  Transition.Reachable Recorded.Step Recorded.Permitted (.initial msgGrainPower)

/-- What holds between two calls. -/
structure Sound (sort : MessageSort) : Prop where
  tables : sort.Tables
  tidy : ∀ (k : ℕ) (array : Writes), sort.writes[k]? = some array → array.Tidy
  /-- A region with marks is dirty and has not been discarded. -/
  pending : ∀ (k : ℕ) (array : Writes), sort.writes[k]? = some array → array.Active →
    k ∈ sort.dirty.elements ∧ ∃ r ∈ sort.sortedRegions, r.region = k
  known : ∀ k ∈ sort.dirty.elements, k < sort.regions.length

theorem sound_initial (msgGrainPower : ℕ) : (initial msgGrainPower).Sound where
  tables := tables_initial msgGrainPower
  tidy := by simp [initial]
  pending := by simp [initial]
  known := by simp [initial]

theorem Writes.Idle.not_active {array : Writes} (idle : array.Idle) : ¬array.Active :=
  fun active => active.marked (idle.unmarked _)

theorem getElem?_resizeVector {α : Type} (fill : α) {entries : List α} {newSize : ℕ}
    (grows : entries.length ≤ newSize) (i : ℕ) :
    (resizeVector fill newSize entries)[i]? =
      if i < entries.length then entries[i]?
      else if i < newSize then some fill else none := by
  rw [resizeVector, List.take_of_length_le grows, List.getElem?_append]
  by_cases old : i < entries.length
  · rw [if_pos old, if_pos old]
  · rw [if_neg old, if_neg old, List.getElem?_replicate]
    by_cases inside : i < newSize
    · rw [if_pos (by omega), if_pos inside]
    · rw [if_neg (by omega), if_neg inside]

theorem length_resizeVector {α : Type} (fill : α) {entries : List α} {newSize : ℕ}
    (grows : entries.length ≤ newSize) : (resizeVector fill newSize entries).length = newSize := by
  rw [resizeVector, List.take_of_length_le grows, List.length_append, List.length_replicate]
  omega

/-- New slots are not registered. -/
theorem registered_setSlotRange {sort : MessageSort} {range : ℕ}
    (grows : sort.memslots.length ≤ range) (id : ℕ) (slot : Slot) :
    (setSlotRange .none sort range).1.Registered id slot ↔ sort.Registered id slot := by
  show (resizeVector ⟨0, 0, 0⟩ range sort.memslots)[id]? = some slot ∧ 0 < slot.size ↔
    sort.memslots[id]? = some slot ∧ 0 < slot.size
  rw [getElem?_resizeVector _ grows]
  by_cases old : id < sort.memslots.length
  · rw [if_pos old]
  · rw [if_neg old, List.getElem?_eq_none (Nat.le_of_not_lt old)]
    constructor
    · rintro ⟨found, nonempty⟩
      split at found
      next =>
        rw [← Option.some.inj found] at nonempty
        exact absurd nonempty (Nat.lt_irrefl 0)
      next => cases found
    · rintro ⟨found, _⟩
      cases found

theorem Sound.setSlotRange {sort : MessageSort} (sound : sort.Sound) {range : ℕ}
    (grows : sort.memslots.length ≤ range) :
    (MessageSort.setSlotRange .none sort range).1.Sound := by
  have tables := sound.tables
  have growsToo : sort.slotToRegion.length ≤ range := by
    rw [← tables.slots]
    exact grows
  refine ⟨{ tables with slots := ?_, refers := ?_ }, sound.tidy, sound.pending, sound.known⟩
  · show (resizeVector _ range sort.memslots).length =
      (resizeVector _ range sort.slotToRegion).length
    rw [length_resizeVector _ grows, length_resizeVector _ growsToo]
  · intro id slot registered
    have before := (registered_setSlotRange grows id slot).mp registered
    rcases tables.refers id slot before with ⟨r, member, offset, refers, contains⟩
    have bound := (List.getElem?_eq_some_iff.mp refers).1
    refine ⟨r, member, offset, ?_, contains⟩
    change (resizeVector _ range sort.slotToRegion)[id]? = _
    rw [getElem?_resizeVector _ growsToo, if_pos bound]
    exact refers

theorem Sound.addRegister {sort : MessageSort} (sound : sort.Sound) (unmarked : sort.Unmarked)
    {id base size : ℕ} (inRange : id < sort.memslots.length) (nonempty : 0 < size)
    (address : base + size ≤ sizeMax) :
    ∃ after, sort.addRegister id base size = some after ∧ after.Sound ∧
      ∀ other slot, after.Registered other slot ↔
        if other = id then slot = ⟨id, base, size⟩ else sort.Registered other slot := by
  rcases sound.tables.addRegister unmarked inRange nonempty address with ⟨after, adds, registers⟩
  refine ⟨after, adds, ⟨registers.tables, ?_, ?_, ?_⟩, ?_⟩
  · intro k array found
    exact (registers.unmarked k array found).1
  · intro k array found active
    exact absurd active (Writes.Idle.not_active (registers.unmarked k array found).2)
  · intro k member
    rw [registers.elements] at member
    exact Nat.lt_of_lt_of_le (sound.known k member) registers.regions
  · intro other slot
    rw [Registered, registers.memslots]
    by_cases itself : other = id
    · rw [itself, List.getElem?_set_self inRange, if_pos rfl, Option.some.injEq]
      constructor
      · rintro ⟨same, _⟩
        exact same.symm
      · rintro rfl
        exact ⟨rfl, nonempty⟩
    · rw [List.getElem?_set_ne (Ne.symm itself), if_neg itself]
      rfl

theorem Sound.delRegister {sort : MessageSort} (sound : sort.Sound) {id : ℕ}
    (inRange : id < sort.memslots.length) :
    ∃ after, sort.delRegister id = some after ∧ after.Sound ∧
      ∀ other slot, after.Registered other slot ↔ other ≠ id ∧ sort.Registered other slot := by
  have tables := sound.tables
  refine ⟨_, if_pos ⟨inRange, by rw [← tables.slots]; exact inRange⟩, ?_⟩
  have registered : ∀ other slot,
      (sort.memslots.set id ⟨sizeMax, 0, 0⟩)[other]? = some slot ∧ 0 < slot.size ↔
        other ≠ id ∧ sort.Registered other slot := by
    intro other slot
    by_cases itself : other = id
    · rw [itself, List.getElem?_set_self inRange, Option.some.injEq]
      constructor
      · rintro ⟨rfl, nonempty⟩
        exact absurd nonempty (Nat.lt_irrefl 0)
      · rintro ⟨differs, _⟩
        exact absurd rfl differs
    · rw [List.getElem?_set_ne (Ne.symm itself)]
      exact (and_iff_right itself).symm
  refine ⟨⟨{ tables with slots := ?_, refers := ?_ }, sound.tidy, sound.pending, sound.known⟩,
    registered⟩
  · simp [tables.slots]
  · intro other slot after
    rcases (registered other slot).mp after with ⟨differs, before⟩
    rw [List.getElem?_set_ne (Ne.symm differs)]
    exact tables.refers other slot before

theorem getElem?_set_writes {sort : MessageSort} {k : ℕ} {array : Writes}
    (found : sort.writes[k]? = some array) (changed : Writes) (j : ℕ) :
    (sort.writes.set k changed)[j]? = if j = k then some changed else sort.writes[j]? := by
  have bound : k < sort.writes.length := (List.getElem?_eq_some_iff.mp found).1
  by_cases here : j = k
  · rw [here, List.getElem?_set_self bound, if_pos rfl]
  · rw [List.getElem?_set_ne (Ne.symm here), if_neg here]

/-- One array is replaced by another one of the same size. -/
theorem Tables.update {sort : MessageSort} (tables : sort.Tables) {k : ℕ} {array changed : Writes}
    {dirty : SparseSet} (found : sort.writes[k]? = some array)
    (length : changed.memory.length = array.memory.length) (wellFormed : dirty.WellFormed)
    (range : dirty.min = sort.dirty.min ∧ dirty.max = sort.dirty.max) :
    Tables { sort with writes := sort.writes.set k changed, dirty := dirty } := by
  refine { tables with
    arrays := ?_
    sameLength := ?_
    dirty := wellFormed
    dirtyMin := range.1.trans tables.dirtyMin
    dirtyRoom := ?_ }
  · intro r member
    rcases tables.arrays r member with ⟨old, oldFound, oldLength⟩
    simp only [getElem?_set_writes found]
    by_cases here : r.region = k
    · rw [here, found, Option.some.injEq] at oldFound
      refine ⟨changed, if_pos here, ?_⟩
      rw [length, oldFound]
      exact oldLength
    · exact ⟨old, (if_neg here).trans oldFound, oldLength⟩
  · rw [List.length_set]
    exact tables.sameLength
  · rw [range.2]
    exact tables.dirtyRoom

theorem Sound.update {sort : MessageSort} (sound : sort.Sound) {k : ℕ} {array changed : Writes}
    {dirty : SparseSet} (found : sort.writes[k]? = some array) (tidy : changed.Tidy)
    (length : changed.memory.length = array.memory.length) (wellFormed : dirty.WellFormed)
    (range : dirty.min = sort.dirty.min ∧ dirty.max = sort.dirty.max)
    (pending : changed.Active → k ∈ dirty.elements ∧ ∃ r ∈ sort.sortedRegions, r.region = k)
    (others : ∀ j ∈ sort.dirty.elements, j ≠ k → j ∈ dirty.elements)
    (known : ∀ j ∈ dirty.elements, j < sort.regions.length) :
    Sound { sort with writes := sort.writes.set k changed, dirty := dirty } := by
  refine ⟨sound.tables.update found length wellFormed range, ?_, ?_, known⟩
  · intro j other otherFound
    simp only [getElem?_set_writes found] at otherFound
    split at otherFound
    next =>
      rw [← Option.some.inj otherFound]
      exact tidy
    next => exact sound.tidy j other otherFound
  · intro j other otherFound active
    simp only [getElem?_set_writes found] at otherFound
    split at otherFound
    next here =>
      rw [← Option.some.inj otherFound] at active
      rw [here]
      exact pending active
    next differs =>
      rcases sound.pending j other otherFound active with ⟨member, listed⟩
      exact ⟨others j member differs, listed⟩

/-- The mark of a grain. -/
def label (sort : MessageSort) (j k : ℕ) : ℕ := (sort.writes[j]?.map (·.label k)).getD 0

/-- Only finitely many grains have marks. -/
theorem finite_label {sort : MessageSort} (lengths : ∀ (k : ℕ) (array : Writes),
    sort.writes[k]? = some array → array.memory.length ≤ sizeMax) :
    {grain : ℕ × ℕ | sort.label grain.1 grain.2 ≠ 0}.Finite := by
  apply Set.Finite.subset
    (Set.Finite.prod (Set.finite_lt_nat sort.writes.length) (Set.finite_lt_nat sizeMax))
  rintro ⟨j, k⟩ marked
  change sort.label j k ≠ 0 at marked
  rw [label] at marked
  cases found : sort.writes[j]? with
  | none => simp [found] at marked
  | some array =>
      rw [found] at marked
      refine ⟨(List.getElem?_eq_some_iff.mp found).1, ?_⟩
      show k < sizeMax
      by_contra beyond
      have length := lengths j array found
      exact marked (Writes.label_of_length_le (by omega))

/-- Everything but the marks. -/
structure SameTables (sort after : MessageSort) : Prop where
  memslots : after.memslots = sort.memslots
  regions : after.regions = sort.regions
  sortedRegions : after.sortedRegions = sort.sortedRegions
  slotToRegion : after.slotToRegion = sort.slotToRegion
  msgGrainPower : after.msgGrainPower = sort.msgGrainPower

namespace SameTables

theorem refl (sort : MessageSort) : SameTables sort sort := ⟨rfl, rfl, rfl, rfl, rfl⟩

theorem trans {sort middle after : MessageSort} (first : SameTables sort middle)
    (second : SameTables middle after) : SameTables sort after where
  memslots := second.memslots.trans first.memslots
  regions := second.regions.trans first.regions
  sortedRegions := second.sortedRegions.trans first.sortedRegions
  slotToRegion := second.slotToRegion.trans first.slotToRegion
  msgGrainPower := second.msgGrainPower.trans first.msgGrainPower

theorem covers_iff {sort after : MessageSort} (same : SameTables sort after) (write : Write)
    (r : Region) (k : ℕ) : after.Covers write r k ↔ sort.Covers write r k := by
  simp only [Covers, Registered, same.memslots, same.sortedRegions, same.slotToRegion,
    same.msgGrainPower]

theorem valid_iff {sort after : MessageSort} (same : SameTables sort after) (write : Write) :
    after.Valid write ↔ sort.Valid write := by
  constructor
  · rintro ⟨small, inside, r, k, covers⟩
    simp only [Registered, same.memslots] at inside
    exact ⟨small, inside, r, k, (same.covers_iff write r k).mp covers⟩
  · rintro ⟨small, inside, r, k, covers⟩
    refine ⟨small, ?_, r, k, (same.covers_iff write r k).mpr covers⟩
    simp only [Registered, same.memslots]
    exact inside

end SameTables

theorem label_set {sort : MessageSort} {j : ℕ} {array : Writes}
    (found : sort.writes[j]? = some array) (changed : Writes) (dirty : SparseSet) (i k : ℕ) :
    label { sort with writes := sort.writes.set j changed, dirty := dirty } i k =
      if i = j then changed.label k else sort.label i k := by
  simp only [label, getElem?_set_writes found]
  split <;> rfl

/-- The grains that lie in a range of a region, as `pushWrite` computes them. -/
structure Grains (start size grain diff first count : ℕ) : Prop where
  aligned : start + diff = first * grain
  diffLe : diff ≤ size
  counted : (size - diff) / grain = count
  remaining : size - diff - (size - diff) % grain = count * grain
  nonempty : 0 < count
  inside : ∀ k, start ≤ k * grain ∧ (k + 1) * grain ≤ start + size ↔
    first ≤ k ∧ k < first + count

/-- Rounding up, as `pushWrite` computes it. -/
theorem exists_roundUp {grain : ℕ} (positive : 0 < grain) (start : ℕ) :
    ∃ first, start + (grain - 1 - (start + (grain - 1)) % grain) = first * grain ∧
      ∀ i, start ≤ i * grain ↔ first ≤ i := by
  have rest := Nat.mod_lt (start + (grain - 1)) positive
  have division := Nat.div_add_mod (start + (grain - 1)) grain
  rw [Nat.mul_comm] at division
  generalize (start + (grain - 1)) / grain = first at division
  generalize (start + (grain - 1)) % grain = remainder at division rest
  have aligned : start + (grain - 1 - remainder) = first * grain := by omega
  refine ⟨first, aligned, ?_⟩
  intro i
  constructor
  · intro below
    by_contra smaller
    have next : (i + 1) * grain ≤ first * grain := Nat.mul_le_mul_right grain (by omega)
    rw [Nat.add_mul, Nat.one_mul] at next
    omega
  · intro le
    have := Nat.mul_le_mul_right grain le
    omega

theorem exists_grains {start size grain k : ℕ} (positive : 0 < grain)
    (lower : start ≤ k * grain) (upper : (k + 1) * grain ≤ start + size) :
    ∃ first count,
      Grains start size grain (grain - 1 - (start + (grain - 1)) % grain) first count := by
  rcases exists_roundUp positive start with ⟨first, aligned, lowerIff⟩
  generalize grain - 1 - (start + (grain - 1)) % grain = diff at aligned
  have firstLe := (lowerIff k).mp lower
  have enough : first * grain + grain ≤ start + size := by
    have := Nat.mul_le_mul_right grain firstLe
    rw [Nat.add_mul, Nat.one_mul] at upper
    omega
  have upperIff : ∀ i, first ≤ i →
      ((i + 1) * grain ≤ start + size ↔ i < first + (size - diff) / grain) := by
    intro i le
    rcases Nat.exists_eq_add_of_le le with ⟨extra, rfl⟩
    have split : (first + extra + 1) * grain = first * grain + (extra + 1) * grain := by
      rw [Nat.add_assoc, Nat.add_mul]
    have divides := Nat.le_div_iff_mul_le positive (x := extra + 1) (y := size - diff)
    rw [split]
    omega
  have insideIff : ∀ i, start ≤ i * grain ∧ (i + 1) * grain ≤ start + size ↔
      first ≤ i ∧ i < first + (size - diff) / grain := by
    intro i
    rw [lowerIff]
    exact and_congr_right (upperIff i)
  refine ⟨first, (size - diff) / grain, aligned, by omega, rfl, ?_, ?_, insideIff⟩
  · have := Nat.div_add_mod (size - diff) grain
    rw [Nat.mul_comm] at this
    omega
  · have := (insideIff k).mp ⟨lower, upper⟩
    omega

/-- What `pushWrite` leaves behind. -/
structure Pushed (sort : MessageSort) (write : Write) (after : MessageSort) (offset size : ℕ) :
    Prop where
  push : sort.pushWrite write.msgId write.slot write.offset write.size =
    some (after, offset, size)
  sound : after.Sound
  sameTables : SameTables sort after
  raised : ∀ r k, sort.Covers write r k →
    after.label r.region k = Max.max (sort.label r.region k) (write.msgId + 1)
  others : ∀ j k, (∀ r, sort.Covers write r k → r.region ≠ j) → after.label j k = sort.label j k
  /-- The offset and the size that are returned are those of the grains that are covered. -/
  returned : ∃ slot r first count, sort.Registered write.slot slot ∧
    (∀ k, sort.Covers write r k ↔ first ≤ k ∧ k < first + count) ∧
    slot.base + offset = r.base + (first <<< sort.msgGrainPower) ∧
    size = count <<< sort.msgGrainPower

/-- All grains that a write covers are in the same region. -/
theorem Tables.covers_unique {sort : MessageSort} (tables : sort.Tables) {write : Write}
    {r other : Region} {k i : ℕ} (covers : sort.Covers write r k)
    (otherCovers : sort.Covers write other i) : other = r := by
  rcases covers with ⟨member, _, _, _, refers, _⟩
  rcases otherCovers with ⟨otherMember, _, _, _, otherRefers, _⟩
  rw [refers, Option.some.injEq, SlotToRegion.mk.injEq] at otherRefers
  exact tables.eq_of_region otherMember member otherRefers.1.symm

/-- Where a write to a slot lies, and which grains it covers, in the terms of its slot's entry. -/
theorem Tables.place {sort : MessageSort} (tables : sort.Tables) {write : Write} {slot : Slot}
    (registered : sort.Registered write.slot slot) :
    ∃ r ∈ sort.sortedRegions, ∃ offset,
      sort.slotToRegion[write.slot]? = some ⟨r.region, offset⟩ ∧ r.base + offset = slot.base ∧
      slot.base + slot.size ≤ r.base + r.size ∧
      ∀ k, sort.Covers write r k ↔ offset + write.offset ≤ k * 2 ^ sort.msgGrainPower ∧
        (k + 1) * 2 ^ sort.msgGrainPower ≤ offset + write.offset + write.size := by
  rcases tables.refers write.slot slot registered with
    ⟨r, member, offset, refers, based, contained⟩
  refine ⟨r, member, offset, refers, based, contained, ?_⟩
  intro k
  simp only [Covers, Nat.shiftLeft_eq]
  constructor
  · rintro ⟨_, found, other, itsSlot, _, lower, upper⟩
    have same := itsSlot.1
    rw [registered.1, Option.some.injEq] at same
    subst same
    omega
  · rintro ⟨lower, upper⟩
    exact ⟨member, slot, offset, registered, refers, by omega, by omega⟩

/-- The same for a region in which the write covers a grain. -/
theorem Tables.covers_iff {sort : MessageSort} (tables : sort.Tables) {write : Write} {r : Region}
    {i : ℕ} (covers : sort.Covers write r i) {slot : Slot}
    (registered : sort.Registered write.slot slot) :
    ∃ offset, sort.slotToRegion[write.slot]? = some ⟨r.region, offset⟩ ∧
      r.base + offset = slot.base ∧ slot.base + slot.size ≤ r.base + r.size ∧
      ∀ k, sort.Covers write r k ↔ offset + write.offset ≤ k * 2 ^ sort.msgGrainPower ∧
        (k + 1) * 2 ^ sort.msgGrainPower ≤ offset + write.offset + write.size := by
  rcases tables.place registered with ⟨region, regionMember, offset, refers, place⟩
  rcases covers with ⟨member, _, _, _, itsRefers, _⟩
  rw [refers, Option.some.injEq, SlotToRegion.mk.injEq] at itsRefers
  obtain rfl := tables.eq_of_region regionMember member itsRefers.1
  exact ⟨offset, refers, place⟩

/-- How `pushWrite` treats a write that covers whole grains: it marks `count` grains of a region
from `first` on. -/
structure Marks (sort : MessageSort) (write : Write) (slot : Slot) (r : Region) (array : Writes)
    (offset diff first count : ℕ) : Prop where
  registered : sort.Registered write.slot slot
  member : r ∈ sort.sortedRegions
  found : sort.writes[r.region]? = some array
  refers : sort.slotToRegion[write.slot]? = some ⟨r.region, offset⟩
  based : r.base + offset = slot.base
  aligned : offset + write.offset + diff = first * 2 ^ sort.msgGrainPower
  nonempty : 0 < count
  fits : first + count ≤ array.memory.length
  covers : ∀ k, sort.Covers write r k ↔ first ≤ k ∧ k < first + count
  push : sort.pushWrite write.msgId write.slot write.offset write.size =
    (array.push write.msgId first count).map fun changed =>
      ({ sort with
          writes := sort.writes.set r.region changed
          dirty := sort.dirty.insert r.region },
        write.offset + diff, count * 2 ^ sort.msgGrainPower)

theorem Tables.marks {sort : MessageSort} (tables : sort.Tables) {write : Write}
    (placed : sort.Placed write) :
    ∃ slot r array offset diff first count,
      Marks sort write slot r array offset diff first count := by
  rcases placed with ⟨⟨slot, registered, inside⟩, r, k, covers⟩
  have member : r ∈ sort.sortedRegions := covers.1
  rcases tables.covers_iff covers registered with ⟨offset, refers, based, contained, coversIff⟩
  rcases tables.arrays r member with ⟨array, found, length⟩
  have positive : 0 < 2 ^ sort.msgGrainPower := Nat.two_pow_pos _
  have address := tables.addresses r member
  rcases exists_grains positive ((coversIff k).mp covers).1 ((coversIff k).mp covers).2 with
    ⟨first, count, grains⟩
  generalize difference : 2 ^ sort.msgGrainPower - 1 -
    (offset + write.offset + (2 ^ sort.msgGrainPower - 1)) % 2 ^ sort.msgGrainPower = diff
    at grains
  have rangeIff : ∀ i, sort.Covers write r i ↔ first ≤ i ∧ i < first + count := by
    intro i
    rw [coversIff, grains.inside]
  have nonempty := grains.nonempty
  have diffLe := grains.diffLe
  have aligned := grains.aligned
  have fits : first + count ≤ array.memory.length := by
    have last := ((coversIff (first + count - 1)).mp ((rangeIff _).mpr (by omega))).2
    rw [Nat.sub_add_cancel (by omega)] at last
    rw [length, Nat.shiftRight_eq_div_pow, Nat.le_div_iff_mul_le positive]
    omega
  refine ⟨slot, r, array, offset, diff, first, count, registered, member, found, refers, based,
    aligned, nonempty, fits, rangeIff, ?_⟩
  have nonzero : write.size ≠ 0 := by
    intro zero
    have := grains.counted
    rw [zero, Nat.zero_sub, Nat.zero_div] at this
    omega
  have whole : subSize write.size diff = write.size - diff := subSize_of_le diffLe (by omega)
  have atFirst : (offset + write.offset + diff) >>> sort.msgGrainPower = first := by
    rw [aligned, Nat.shiftRight_eq_div_pow, Nat.mul_div_cancel _ positive]
  have atCount : (write.size - diff) >>> sort.msgGrainPower = count := by
    rw [Nat.shiftRight_eq_div_pow, grains.counted]
  simp only [MessageSort.pushWrite, if_neg nonzero, refers, found, Nat.one_shiftLeft, difference,
    whole, atFirst, atCount, grains.remaining]

theorem Sound.pushWrite {sort : MessageSort} (sound : sort.Sound) {write : Write}
    (valid : sort.Valid write) : ∃ after offset size, Pushed sort write after offset size := by
  have tables := sound.tables
  rcases tables.marks valid.placed with ⟨slot, r, array, offset, diff, first, count, marks⟩
  have found := marks.found
  rcases (sound.tidy _ _ found).push valid.small marks.nonempty marks.fits with
    ⟨changed, pushes, tidy, sameLength, labels⟩
  have numbered : r.region < sort.regions.length :=
    tables.region_lt marks.member
  have dirtyMin := tables.dirtyMin
  have room := tables.dirtyRoom
  rcases tables.dirty.mem_insert (x := r.region) (by omega) (by omega) with ⟨inserted, members⟩
  rw [dirtyMin, Nat.sub_zero] at members
  refine ⟨{ sort with
      writes := sort.writes.set r.region changed
      dirty := sort.dirty.insert r.region },
    write.offset + diff, count * 2 ^ sort.msgGrainPower, ?_, ?_, ⟨rfl, rfl, rfl, rfl, rfl⟩, ?_, ?_,
    ?_⟩
  · rw [marks.push, pushes, Option.map_some]
  · apply sound.update found tidy sameLength inserted (SparseSet.range_insert _ _)
    · intro _
      exact ⟨(members _).mpr (Or.inr rfl), r, marks.member, rfl⟩
    · intro j old _
      exact (members j).mpr (Or.inl old)
    · intro j old
      rcases (members j).mp old with before | rfl
      · exact sound.known j before
      · exact numbered
  · intro other i otherCovers
    have someCovers := (marks.covers first).mpr
      ⟨Nat.le_refl _, Nat.lt_add_of_pos_right marks.nonempty⟩
    have same := tables.covers_unique someCovers otherCovers
    rw [same] at otherCovers
    rw [same, label_set found, if_pos rfl, labels, if_pos ((marks.covers i).mp otherCovers)]
    simp only [label, found, Option.map_some, Option.getD_some]
  · intro j i uncovered
    rw [label_set found]
    by_cases here : j = r.region
    · have outside : ¬(first ≤ i ∧ i < first + count) := by
        intro between
        exact uncovered r ((marks.covers i).mpr between) here.symm
      rw [if_pos here, labels, if_neg outside, here]
      simp only [label, found, Option.map_some, Option.getD_some]
    · rw [if_neg here]
  · refine ⟨slot, r, first, count, marks.registered, marks.covers, ?_, (Nat.shiftLeft_eq _ _).symm⟩
    have aligned := marks.aligned
    have based := marks.based
    rw [Nat.shiftLeft_eq]
    omega

/-- What `popWrite` leaves behind when there is nothing to pop. -/
structure Drained (sort after : MessageSort) : Prop where
  sound : after.Sound
  sameTables : SameTables sort after
  unmarked : after.Unmarked
  empty : after.empty = true
  nothing : ∀ j k, sort.label j k = 0

/-- What `popWrite` leaves behind when it pops a write. -/
structure Cleared (sort : MessageSort) (popped : Popped) (after : MessageSort)
    (r : Region) (first count : ℕ) : Prop where
  sound : after.Sound
  sameTables : SameTables sort after
  member : r ∈ sort.sortedRegions
  nonempty : 0 < count
  inside : first + count ≤ r.size >>> sort.msgGrainPower
  base : popped.base = r.base + (first <<< sort.msgGrainPower)
  size : popped.size = count <<< sort.msgGrainPower
  marked : ∀ k, first ≤ k → k < first + count → sort.label r.region k = popped.msgId + 1
  label : ∀ j k, after.label j k =
    if j = r.region ∧ first ≤ k ∧ k < first + count then 0 else sort.label j k

theorem Unmarked.label {sort : MessageSort} (unmarked : sort.Unmarked) (j k : ℕ) :
    sort.label j k = 0 := by
  rw [MessageSort.label]
  cases found : sort.writes[j]? with
  | none => rfl
  | some array => exact (unmarked j array found).2.unmarked k

theorem Sound.drained {sort : MessageSort} (sound : sort.Sound) (none : sort.dirty.elements = []) :
    Drained sort sort := by
  have unmarked : sort.Unmarked := by
    intro k array found
    have tidy := sound.tidy k array found
    rcases tidy.window with idle | active
    · exact ⟨tidy, idle⟩
    · have member := (sound.pending k array found active).1
      rw [none] at member
      cases member
  exact ⟨sound, SameTables.refl sort, unmarked, sound.tables.dirty.empty_iff.mpr none,
    unmarked.label⟩

/-- The loop of `popWrite`.  What holds before it and after each region that is forgotten leads to
what holds where it ends. -/
theorem popDirty_rule {Holds : MessageSort → Prop} {Ends : Option Popped → MessageSort → Prop}
    (clean : ∀ sort, Holds sort → sort.dirty.elements = [] → Ends none sort)
    (visit : ∀ sort j, Holds sort → j ∈ sort.dirty.elements →
      ∃ array, sort.writes[j]? = some array ∧
        ((∃ changed, array.pop = some (none, changed) ∧
            Holds { sort with writes := sort.writes.set j changed, dirty := sort.dirty.erase j } ∧
            (sort.dirty.erase j).elements.length < sort.dirty.elements.length) ∨
          ∃ id start size changed r, array.pop = some (some (id, start, size), changed) ∧
            sort.regions[j]? = some r ∧
            Ends (some ⟨id, r.base + (start <<< sort.msgGrainPower), size <<< sort.msgGrainPower⟩)
              { sort with writes := sort.writes.set j changed }))
    {left : ℕ} {sort : MessageSort} (holds : Holds sort)
    (enough : sort.dirty.elements.length ≤ left) :
    ∃ popped after, MessageSort.popDirty left sort = some (popped, after) ∧ Ends popped after := by
  induction left generalizing sort with
  | zero =>
      have none : sort.dirty.elements = [] :=
        List.eq_nil_of_length_eq_zero (Nat.le_zero.mp enough)
      exact ⟨_, sort, rfl, clean sort holds none⟩
  | succ left ih =>
      rw [MessageSort.popDirty]
      cases dirty : sort.dirty.elements with
      | nil => exact ⟨none, sort, rfl, clean sort holds dirty⟩
      | cons j rest =>
          have member : j ∈ sort.dirty.elements := by
            rw [dirty]
            exact List.mem_cons_self
          rcases visit sort j holds member with
            ⟨array, found, ⟨changed, pops, after, fewer⟩ |
              ⟨id, start, size, changed, r, pops, region, ends⟩⟩
          · simp only [found, pops, Option.bind_some]
            exact ih after (Nat.le_of_lt_succ (Nat.lt_of_lt_of_le fewer enough))
          · simp only [found, pops, Option.bind_some, region, Option.map_some]
            exact ⟨_, _, rfl, ends⟩

/-- Regions without marks have been forgotten. -/
structure Forgot (sort after : MessageSort) : Prop where
  sound : after.Sound
  sameTables : SameTables sort after
  labels : ∀ j k, after.label j k = sort.label j k

namespace Forgot

variable {sort before : MessageSort}

theorem drained (forgot : Forgot sort before) (none : before.dirty.elements = []) :
    Drained sort before := by
  have drained := forgot.sound.drained none
  refine ⟨forgot.sound, forgot.sameTables, drained.unmarked, drained.empty, ?_⟩
  intro j k
  rw [← forgot.labels]
  exact drained.nothing j k

theorem forget (forgot : Forgot sort before) {j : ℕ} {array : Writes}
    (found : before.writes[j]? = some array) (idle : array.Idle)
    (member : j ∈ before.dirty.elements) :
    Forgot sort { before with
        writes := before.writes.set j array, dirty := before.dirty.erase j } ∧
      (before.dirty.erase j).elements.length < before.dirty.elements.length := by
  have sound := forgot.sound
  have tables := sound.tables
  have dirtyMin := tables.dirtyMin
  have room := tables.dirtyRoom
  have numbered := sound.known j member
  have same := forgot.sameTables
  rcases tables.dirty.mem_erase (x := j) (by omega) (by omega) with ⟨erased, members⟩
  have contained := (tables.dirty.contains_iff (x := j) (by omega) (by omega)).mpr
    (by rw [dirtyMin]; exact member)
  rw [dirtyMin, Nat.sub_zero] at members
  refine ⟨⟨?_, ⟨same.memslots, same.regions, same.sortedRegions, same.slotToRegion,
    same.msgGrainPower⟩, ?_⟩, ?_⟩
  · apply sound.update found (sound.tidy j array found) rfl erased (SparseSet.range_erase _ _)
    · intro active
      exact absurd active (Writes.Idle.not_active idle)
    · intro i old differs
      exact (members i).mpr ⟨old, differs⟩
    · intro i old
      exact sound.known i ((members i).mp old).1
  · intro i k
    rw [← forgot.labels, label_set found]
    split
    next here =>
      rw [here]
      simp only [label, found, Option.map_some, Option.getD_some]
    next => rfl
  · have positive := List.length_pos_of_mem member
    rw [erased.length_elements, SparseSet.size_erase contained, ← tables.dirty.length_elements]
    exact Nat.sub_lt positive Nat.one_pos

theorem cleared (forgot : Forgot sort before) {popped : Popped} {after : MessageSort} {r : Region}
    {first count : ℕ} (cleared : Cleared before popped after r first count) :
    Cleared sort popped after r first count := by
  have same := forgot.sameTables
  refine ⟨cleared.sound, same.trans cleared.sameTables, ?_, cleared.nonempty, ?_, ?_, ?_, ?_, ?_⟩
  · rw [← same.sortedRegions]
    exact cleared.member
  · rw [← same.msgGrainPower]
    exact cleared.inside
  · rw [← same.msgGrainPower]
    exact cleared.base
  · rw [← same.msgGrainPower]
    exact cleared.size
  · intro k lower upper
    rw [← forgot.labels]
    exact cleared.marked k lower upper
  · intro j k
    rw [← forgot.labels]
    exact cleared.label j k

end Forgot

/-- Popping from a dirty region with marks. -/
theorem Sound.clears {sort : MessageSort} (sound : sort.Sound) {j : ℕ} {array : Writes}
    (found : sort.writes[j]? = some array) (active : array.Active) :
    ∃ id start size changed r, array.pop = some (some (id, start, size), changed) ∧
      sort.regions[j]? = some r ∧
      Cleared sort ⟨id, r.base + (start <<< sort.msgGrainPower), size <<< sort.msgGrainPower⟩
        { sort with writes := sort.writes.set j changed } r start size := by
  rcases (sound.tidy j array found).pop active with ⟨id, start, size, changed, pops⟩
  rcases sound.pending j array found active with ⟨member, r, listed, itsRegion⟩
  have region : sort.regions[j]? = some r := by
    rw [← itsRegion]
    exact sound.tables.listed r listed
  rcases sound.tables.arrays r listed with ⟨itsArray, itsFound, length⟩
  rw [itsRegion, found, Option.some.injEq] at itsFound
  subst itsFound
  have labels := label_set found changed sort.dirty
  have current : ∀ k, sort.label j k = array.label k := by
    intro k
    simp only [label, found, Option.map_some, Option.getD_some]
  refine ⟨id, start, size, changed, r, pops.pop, region, ?_, ⟨rfl, rfl, rfl, rfl, rfl⟩, listed,
    pops.nonempty, ?_, rfl, rfl, ?_, ?_⟩
  · apply sound.update found pops.tidy pops.length sound.tables.dirty ⟨rfl, rfl⟩
    · intro _
      exact ⟨member, r, listed, itsRegion⟩
    · intro i old _
      exact old
    · exact sound.known
  · rw [← length]
    exact pops.inside
  · intro k lower upper
    rw [itsRegion, current]
    exact pops.marked k lower upper
  · intro i k
    rw [labels, itsRegion]
    by_cases here : i = j
    · rw [if_pos here, pops.label, here, current]
      simp only [true_and]
    · rw [if_neg here, if_neg (fun both => here both.1)]

/-- How the loop of `popWrite` ends. -/
def Ended (sort : MessageSort) : Option Popped → MessageSort → Prop
  | none, after => Drained sort after
  | some popped, after => ∃ r first count, Cleared sort popped after r first count

/-- `popWrite` pops a run of grains with the same mark, or there is none. -/
theorem Sound.popWrite {sort : MessageSort} (sound : sort.Sound) :
    (∃ after, sort.popWrite = some (none, after) ∧ Drained sort after) ∨
      ∃ popped after r first count, sort.popWrite = some (some popped, after) ∧
        Cleared sort popped after r first count := by
  have clean : ∀ before, Forgot sort before → before.dirty.elements = [] →
      Ended sort none before := fun _ forgot none => forgot.drained none
  have ends := popDirty_rule clean (by
    intro before j forgot member
    have bound : j < before.writes.length := by
      rw [forgot.sound.tables.sameLength]
      exact forgot.sound.known j member
    have found : before.writes[j]? = some before.writes[j] := List.getElem?_eq_getElem bound
    refine ⟨_, found, ?_⟩
    rcases (forgot.sound.tidy j _ found).window with idle | active
    · exact Or.inl ⟨_, idle.pop, forgot.forget found idle member⟩
    · rcases forgot.sound.clears found active with
        ⟨id, start, size, changed, r, pops, region, cleared⟩
      exact Or.inr ⟨id, start, size, changed, r, pops, region, r, start, size,
        forgot.cleared cleared⟩)
    ⟨sound, SameTables.refl sort, fun _ _ => rfl⟩
    (Nat.le_of_eq sound.tables.dirty.length_elements)
  rcases ends with ⟨_ | popped, after, pops, ended⟩
  · exact Or.inl ⟨after, pops, ended⟩
  · rcases ended with ⟨r, first, count, cleared⟩
    exact Or.inr ⟨popped, after, r, first, count, pops, cleared⟩

theorem SameTables.registered_iff {sort after : MessageSort} (same : SameTables sort after)
    (id : ℕ) (slot : Slot) : after.Registered id slot ↔ sort.Registered id slot := by
  rw [Registered, same.memslots]
  rfl

namespace Recorded

/-- The tables agree, and the registered slots are those that were recorded. -/
structure Sound (state : Recorded) : Prop where
  sort : state.sort.Sound
  registered : ∀ id slot, state.live id = some slot ↔ state.sort.Registered id slot

theorem sound_initial (msgGrainPower : ℕ) : (initial msgGrainPower).Sound where
  sort := MessageSort.sound_initial msgGrainPower
  registered := by simp [initial, MessageSort.initial, Registered]

/-- No permitted call fails, and the tables agree after it. -/
theorem Sound.run {state : Recorded} (sound : state.Sound) {call : Call}
    (permitted : state.Permitted call) :
    ∃ after, call.run state.sort = some after ∧ Sound ⟨after, call.record state.live⟩ := by
  cases call with
  | setSlotRange range =>
      refine ⟨_, rfl, sound.sort.setSlotRange permitted, ?_⟩
      intro id slot
      rw [registered_setSlotRange permitted]
      exact sound.registered id slot
  | addRegister id base size =>
      rcases permitted with ⟨inRange, nonempty, address, unmarked⟩
      rcases sound.sort.addRegister unmarked inRange nonempty address with
        ⟨after, adds, afterSound, registered⟩
      refine ⟨after, adds, afterSound, ?_⟩
      intro other slot
      rw [registered, ← sound.registered]
      simp only [Call.record]
      split
      next => exact (Option.some.injEq _ _).to_iff.trans eq_comm
      next => rfl
  | delRegister id =>
      rcases sound.sort.delRegister permitted with ⟨after, deletes, afterSound, registered⟩
      refine ⟨after, deletes, afterSound, ?_⟩
      intro other slot
      rw [registered, ← sound.registered]
      simp only [Call.record]
      split
      next itself => simp [itself]
      next differs => simp [differs]
  | pushWrite write =>
      rcases sound.sort.pushWrite permitted with ⟨after, offset, size, pushed⟩
      refine ⟨after, ?_, pushed.sound, ?_⟩
      · simp only [Call.run, pushed.push, Option.map_some]
      · intro id slot
        rw [pushed.sameTables.registered_iff]
        exact sound.registered id slot
  | popWrite =>
      have pops : ∃ popped after, state.sort.popWrite = some (popped, after) ∧ after.Sound ∧
          SameTables state.sort after := by
        rcases sound.sort.popWrite with
          ⟨after, pops, drained⟩ | ⟨popped, after, r, first, count, pops, cleared⟩
        · exact ⟨_, after, pops, drained.sound, drained.sameTables⟩
        · exact ⟨_, after, pops, cleared.sound, cleared.sameTables⟩
      rcases pops with ⟨popped, after, pops, afterSound, same⟩
      refine ⟨after, ?_, afterSound, ?_⟩
      · simp only [Call.run, pops, Option.map_some]
      · intro id slot
        rw [same.registered_iff]
        exact sound.registered id slot

theorem Reachable.sound {msgGrainPower : ℕ} {state : Recorded}
    (run : Reachable msgGrainPower state) : state.Sound := by
  apply run.invariant (sound_initial msgGrainPower)
  intro before call after sound permitted taken
  rcases after with ⟨sort, live⟩
  rcases sound.run permitted with ⟨found, runs, afterSound⟩
  rcases taken with ⟨taken, records⟩
  simp only [runs, Option.some.injEq] at taken records
  rw [records, ← taken]
  exact afterSound

theorem Reachable.call {msgGrainPower : ℕ} {state : Recorded}
    (run : Reachable msgGrainPower state) (call : Call) (permitted : state.Permitted call)
    {after : MessageSort} (taken : call.run state.sort = some after) :
    Reachable msgGrainPower ⟨after, call.record state.live⟩ :=
  run.tail permitted ⟨taken, rfl⟩

/-- What the tables of regions say about the live slots. -/
structure RegionTable (state : Recorded) : Prop where
  apart : state.sort.sortedRegions.Pairwise fun a b => a.base + a.size < b.base
  listed : ∀ r ∈ state.sort.sortedRegions, state.sort.regions[r.region]? = some r
  arrays : ∀ r ∈ state.sort.sortedRegions, ∃ array, state.sort.writes[r.region]? = some array ∧
    array.memory.length = r.size / 2 ^ state.sort.msgGrainPower
  contains : ∀ id slot, state.live id = some slot → ∃ r ∈ state.sort.sortedRegions, ∃ offset,
    state.sort.slotToRegion[id]? = some ⟨r.region, offset⟩ ∧ r.base ≤ slot.base ∧
      slot.base + slot.size ≤ r.base + r.size ∧ r.base + offset = slot.base
  shared : ∀ left right leftSlot rightSlot, state.live left = some leftSlot →
    state.live right = some rightSlot → leftSlot.base ≤ rightSlot.base + rightSlot.size →
    rightSlot.base ≤ leftSlot.base + leftSlot.size → ∃ region leftOffset rightOffset,
      state.sort.slotToRegion[left]? = some ⟨region, leftOffset⟩ ∧
        state.sort.slotToRegion[right]? = some ⟨region, rightOffset⟩

/-- Regions that contain ranges that overlap or touch are the same. -/
theorem eq_of_touching {regions : List Region} (apart : Apart regions) {r other : Region}
    (member : r ∈ regions) (otherMember : other ∈ regions)
    (touch : r.base ≤ other.base + other.size) (touched : other.base ≤ r.base + r.size) :
    r = other := by
  by_contra differ
  rcases List.pairwise_iff_getElem.mp apart with ordered
  rcases List.mem_iff_getElem.mp member with ⟨i, iBound, rfl⟩
  rcases List.mem_iff_getElem.mp otherMember with ⟨j, jBound, rfl⟩
  rcases Nat.lt_trichotomy i j with before | same | after
  · have := ordered i j iBound jBound before
    omega
  · subst same
    exact differ rfl
  · have := ordered j i jBound iBound after
    omega

theorem regionTable {msgGrainPower : ℕ} {state : Recorded}
    (run : Reachable msgGrainPower state) : state.RegionTable := by
  have sound := run.sound
  have tables := sound.sort.tables
  refine ⟨tables.apart, tables.listed, ?_, ?_, ?_⟩
  · intro r member
    rcases tables.arrays r member with ⟨array, found, length⟩
    rw [Nat.shiftRight_eq_div_pow] at length
    exact ⟨array, found, length⟩
  · intro id slot live
    rcases tables.refers id slot ((sound.registered id slot).mp live) with
      ⟨r, member, offset, refers, based, contained⟩
    exact ⟨r, member, offset, refers, by omega, contained, based⟩
  · intro left right leftSlot rightSlot leftLive rightLive touch touched
    rcases tables.refers left leftSlot ((sound.registered left leftSlot).mp leftLive) with
      ⟨r, member, offset, refers, based, contained⟩
    rcases tables.refers right rightSlot ((sound.registered right rightSlot).mp rightLive) with
      ⟨other, otherMember, otherOffset, otherRefers, otherBased, otherContained⟩
    have same := eq_of_touching tables.apart member otherMember (by omega) (by omega)
    subst same
    exact ⟨r.region, offset, otherOffset, refers, otherRefers⟩

theorem unmarked_create {sort : MessageSort} (sizes : List ℕ)
    (bounded : ∀ size ∈ sizes, size ≤ sizeMax) (fresh : sort.writes = sizes.map Writes.create) :
    sort.Unmarked := by
  intro k array found
  rw [fresh, List.getElem?_map] at found
  rcases Option.map_eq_some_iff.mp found with ⟨size, member, rfl⟩
  exact ⟨Writes.tidy_create (bounded size (List.mem_of_getElem? member)), Writes.idle_create size⟩

/-- Two slots that touch, of 16 and of 8 bytes. -/
theorem regionTable_touching :
    ∃ state : Recorded, state.live 0 = some ⟨0, 16, 16⟩ ∧ state.live 1 = some ⟨1, 32, 8⟩ ∧
      state.sort.sortedRegions = [⟨0, 16, 24⟩] ∧ state.RegionTable := by
  have started : Reachable 3 (.initial 3) := Transition.Reachable.refl
  have ranged := started.call (.setSlotRange 2) (Nat.zero_le 2) rfl
  have first := ranged.call (.addRegister 0 16 16)
    ⟨by decide, by decide, by decide, unmarked_create [] (by simp) rfl⟩ rfl
  have second := first.call (.addRegister 1 32 8)
    ⟨by decide, by decide, by decide, unmarked_create [2] (by simp [sizeMax]) rfl⟩ rfl
  exact ⟨_, rfl, rfl, rfl, regionTable second⟩

end Recorded

end MessageSort

end Talpf
