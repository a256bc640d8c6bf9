import Talpf.MessageSort.Clear
import Talpf.MessageSort.Windows

/-!
# Writes that cover no whole grain

`pushWrite` trims a write to the whole grains in it.  Where there are none, it
pushes a range of no entries.  This moves the window of the region and lists
the region as dirty, which is harmless only if the region has marks and its
window begins at or before the boundary that the write touches.
-/

namespace Talpf

namespace MessageSort

open Observation

/-- A part of a write that begins and ends at boundaries between grains of its region. -/
structure GrainPart (sort : MessageSort) (write : Write) (entry : SlotToRegion)
    (offset size : ℕ) : Prop where
  start : 2 ^ sort.msgGrainPower ∣ entry.offset + offset
  length : 2 ^ sort.msgGrainPower ∣ size
  lower : write.offset ≤ offset
  upper : offset + size ≤ write.offset + write.size

/-- `pushWrite` returns the largest part that consists of whole grains and marks entries inside of
the array.  If there is no whole grain, nothing is ever noticed of the call. -/
structure Trimmed (sort : MessageSort) (write : Write) (entry : SlotToRegion) (array : Writes)
    (after : MessageSort) (offset size : ℕ) : Prop where
  refers : sort.slotToRegion[write.slot]? = some entry
  found : sort.writes[entry.region]? = some array
  push : sort.pushWrite write.msgId write.slot write.offset write.size =
    some (after, offset, size)
  part : sort.GrainPart write entry offset size
  largest : ∀ otherOffset otherSize, sort.GrainPart write entry otherOffset otherSize →
    otherSize ≤ size ∧
      (0 < otherSize → offset ≤ otherOffset ∧ otherOffset + otherSize ≤ offset + size)
  silent : (∀ r k, ¬sort.Covers write r k) → size = 0 ∧ Alike askNumbered sort after
  inside : ∃ first count, entry.offset + offset = first * 2 ^ sort.msgGrainPower ∧
    size = count * 2 ^ sort.msgGrainPower ∧ first + count ≤ array.memory.length ∧
    ∀ j, after.writes[j]?.map Writes.memory =
      if j = entry.region then some (Writes.mark write.msgId first count array.memory)
      else sort.writes[j]?.map Writes.memory

def Trims (sort : MessageSort) (write : Write) : Prop :=
  ∃ entry array after offset size, Trimmed sort write entry array after offset size

/-- A write to the inside of a slot that covers no whole grain of region `k`, but touches the
boundary before grain `boundary`. -/
structure Touches (sort : MessageSort) (write : Write) (k boundary : ℕ) : Prop where
  inside : ∃ slot, sort.Registered write.slot slot ∧ write.offset + write.size ≤ slot.size
  nonempty : 0 < write.size
  short : ∀ r i, ¬sort.Covers write r i
  touches : ∃ offset, sort.slotToRegion[write.slot]? = some ⟨k, offset⟩ ∧
    offset + write.offset ≤ boundary * 2 ^ sort.msgGrainPower ∧
    boundary * 2 ^ sort.msgGrainPower ≤ offset + write.offset + write.size

/-- The region has marks, and its window begins at or before the boundary. -/
def Harmless (sort : MessageSort) (write : Write) : Prop :=
  ∃ k boundary array, sort.Touches write k boundary ∧ sort.writes[k]? = some array ∧
    0 < boundary ∧ array.min ≤ boundary ∧ ∃ i, array.label i ≠ 0

/-- The region has no marks, and no short write touches another one of its boundaries. -/
def Secluded (sort : MessageSort) (write : Write) : Prop :=
  ∃ k boundary array, sort.Touches write k boundary ∧ sort.writes[k]? = some array ∧
    0 < boundary ∧ (∀ i, array.label i = 0) ∧
    ∀ other otherBoundary, other.msgId < 2 ^ 31 → sort.Touches other k otherBoundary →
      0 < otherBoundary → otherBoundary = boundary

/-- What a push of no entries does to an array. -/
def shifted (array : Writes) (boundary : ℕ) : Writes :=
  ⟨Nat.min array.min boundary, Nat.max array.max (subSize boundary 1), array.memory⟩

/-- How `pushWrite` treats a write that touches a boundary. -/
structure Shifts (sort : MessageSort) (write : Write) (k boundary : ℕ) (array : Writes)
    (offset newOffset : ℕ) : Prop where
  refers : sort.slotToRegion[write.slot]? = some ⟨k, offset⟩
  found : sort.writes[k]? = some array
  fits : boundary ≤ array.memory.length
  aligned : offset + newOffset = boundary * 2 ^ sort.msgGrainPower
  lower : write.offset ≤ newOffset
  upper : newOffset ≤ write.offset + write.size
  short : ∀ i, ¬(offset + write.offset ≤ i * 2 ^ sort.msgGrainPower ∧
    (i + 1) * 2 ^ sort.msgGrainPower ≤ offset + write.offset + write.size)
  push : sort.pushWrite write.msgId write.slot write.offset write.size =
    some ({ sort with
      writes := sort.writes.set k (shifted array boundary)
      dirty := sort.dirty.insert k }, newOffset, 0)

theorem Tables.shifts {sort : MessageSort} (tables : sort.Tables) {write : Write} {k boundary : ℕ}
    (touching : sort.Touches write k boundary) :
    ∃ array offset newOffset, Shifts sort write k boundary array offset newOffset := by
  rcases touching with ⟨⟨slot, registered, inside⟩, nonempty, short, offset, refers, lower, upper⟩
  rcases tables.place registered with ⟨r, member, itsOffset, itsRefers, based, contained, covers⟩
  rw [refers, Option.some.injEq, SlotToRegion.mk.injEq] at itsRefers
  rcases itsRefers with ⟨rfl, rfl⟩
  rcases tables.arrays r member with ⟨array, found, length⟩
  have positive : 0 < 2 ^ sort.msgGrainPower := Nat.two_pow_pos _
  have address := tables.addresses r member
  rcases exists_roundUp positive (offset + write.offset) with ⟨first, aligned, lowerIff⟩
  generalize difference : 2 ^ sort.msgGrainPower - 1 -
    (offset + write.offset + (2 ^ sort.msgGrainPower - 1)) % 2 ^ sort.msgGrainPower = diff
    at aligned
  have notCovered : ∀ i, ¬(offset + write.offset ≤ i * 2 ^ sort.msgGrainPower ∧
      (i + 1) * 2 ^ sort.msgGrainPower ≤ offset + write.offset + write.size) := by
    intro i covered
    exact short r i ((covers i).mpr covered)
  -- the boundary is the next one, because the write ends before the one after
  have firstLe := (lowerIff boundary).mp lower
  have same : first = boundary := by
    by_contra differs
    apply notCovered first
    refine ⟨(lowerIff first).mpr (Nat.le_refl first), ?_⟩
    have next : (first + 1) * 2 ^ sort.msgGrainPower ≤ boundary * 2 ^ sort.msgGrainPower :=
      Nat.mul_le_mul_right _ (by omega)
    omega
  subst same
  have trailing : write.size - diff < 2 ^ sort.msgGrainPower := by
    by_contra whole
    apply notCovered first
    refine ⟨lower, ?_⟩
    rw [Nat.add_mul, Nat.one_mul]
    omega
  have fits : first ≤ array.memory.length := by
    rw [length, Nat.shiftRight_eq_div_pow, Nat.le_div_iff_mul_le positive]
    omega
  refine ⟨array, offset, write.offset + diff, refers, found, fits, by omega, by omega, by omega,
    notCovered, ?_⟩
  have whole : subSize write.size diff = write.size - diff := subSize_of_le (by omega) (by omega)
  have atFirst : (offset + write.offset + diff) >>> sort.msgGrainPower = first := by
    rw [aligned, Nat.shiftRight_eq_div_pow, Nat.mul_div_cancel _ positive]
  have none : (write.size - diff) >>> sort.msgGrainPower = 0 := by
    rw [Nat.shiftRight_eq_div_pow]
    exact Nat.div_eq_of_lt trailing
  simp only [MessageSort.pushWrite, if_neg (Nat.ne_of_gt nonempty), refers, found,
    Nat.one_shiftLeft, difference, whole, atFirst, none, Writes.push, Nat.add_zero, if_pos fits,
    Option.map_some, Writes.mark, shifted, Nat.mod_eq_of_lt trailing, Nat.sub_self]

/-- Without a boundary, the size that is left underflows. -/
theorem not_fits_of_underflow {power start size diff first extent : ℕ}
    (aligned : start + diff = first * 2 ^ power) (beyond : size < diff)
    (remainder : diff < 2 ^ power) (inside : extent ≤ sizeMax) :
    ¬first + (subSize size diff >>> power) ≤ extent >>> power := by
  have positive : 0 < 2 ^ power := Nat.two_pow_pos _
  have nonzero : 0 < first := by
    by_contra zero
    have none : first = 0 := by omega
    rw [none, Nat.zero_mul] at aligned
    omega
  rw [sizeMax] at inside
  rw [Nat.shiftRight_eq_div_pow, Nat.shiftRight_eq_div_pow]
  by_cases narrow : power ≤ 64
  · -- the underflow leaves all grains of the address space but one
    have split : 2 ^ 64 = 2 ^ (64 - power) * 2 ^ power := by
      rw [← Nat.pow_add, Nat.sub_add_cancel narrow]
    generalize 2 ^ (64 - power) = grains at split
    generalize 2 ^ power = grain at *
    have most : extent / grain < grains := by
      apply Nat.div_lt_of_lt_mul
      rw [Nat.mul_comm, ← split]
      omega
    have wrapped : grains - 1 ≤ subSize size diff / grain := by
      rw [Nat.le_div_iff_mul_le positive, Nat.sub_mul, Nat.one_mul, ← split, subSize]
      have smaller : grain ≤ 2 ^ 64 := by
        rw [split]
        exact Nat.le_mul_of_pos_left _ (Nat.lt_of_le_of_lt (Nat.zero_le _) most)
      omega
    generalize extent / grain = available at most
    generalize subSize size diff / grain = wanted at wrapped
    omega
  · have wide : 2 ^ 64 ≤ 2 ^ power := Nat.pow_le_pow_right (by decide) (by omega)
    have none : extent / 2 ^ power = 0 := Nat.div_eq_of_lt (Nat.lt_of_lt_of_le (by omega) wide)
    rw [none]
    exact Nat.not_le_of_lt (Nat.lt_of_lt_of_le nonzero (Nat.le_add_right _ _))

/-- A short write either touches a boundary, or `pushWrite` fails. -/
theorem Tables.touches_or_fails {sort : MessageSort} (tables : sort.Tables) {write : Write}
    {slot : Slot} (registered : sort.Registered write.slot slot)
    (inside : write.offset + write.size ≤ slot.size) (nonempty : 0 < write.size)
    (short : ∀ r i, ¬sort.Covers write r i) :
    (∃ k boundary, sort.Touches write k boundary) ∨
      sort.pushWrite write.msgId write.slot write.offset write.size = none := by
  rcases tables.place registered with ⟨r, member, offset, refers, based, contained, covers⟩
  rcases tables.arrays r member with ⟨array, found, length⟩
  have positive : 0 < 2 ^ sort.msgGrainPower := Nat.two_pow_pos _
  have address := tables.addresses r member
  rcases exists_roundUp positive (offset + write.offset) with ⟨first, aligned, lowerIff⟩
  generalize difference : 2 ^ sort.msgGrainPower - 1 -
    (offset + write.offset + (2 ^ sort.msgGrainPower - 1)) % 2 ^ sort.msgGrainPower = diff
    at aligned
  by_cases reaches : diff ≤ write.size
  · refine Or.inl ⟨r.region, first, ⟨slot, registered, inside⟩, nonempty, short, offset, refers,
      (lowerIff first).mpr (Nat.le_refl first), by omega⟩
  · have fails := not_fits_of_underflow aligned (Nat.lt_of_not_le reaches) (by omega)
      (Nat.le_trans (Nat.le_add_left _ _) address)
    have atFirst : (offset + write.offset + diff) >>> sort.msgGrainPower = first := by
      rw [aligned, Nat.shiftRight_eq_div_pow, Nat.mul_div_cancel _ positive]
    right
    simp only [MessageSort.pushWrite, if_neg (Nat.ne_of_gt nonempty), refers, found,
      Nat.one_shiftLeft, difference, atFirst, Writes.push, length, if_neg fails, Option.map_none]

theorem GrainPart.covers {sort : MessageSort} {write : Write} {entry : SlotToRegion}
    {offset size : ℕ} (part : sort.GrainPart write entry offset size) :
    ∃ first count, entry.offset + offset = first * 2 ^ sort.msgGrainPower ∧
      size = count * 2 ^ sort.msgGrainPower ∧ ∀ i, first ≤ i → i < first + count →
        entry.offset + write.offset ≤ i * 2 ^ sort.msgGrainPower ∧
        (i + 1) * 2 ^ sort.msgGrainPower ≤ entry.offset + write.offset + write.size := by
  rcases part with ⟨⟨first, atFirst⟩, ⟨count, itsCount⟩, lower, upper⟩
  rw [Nat.mul_comm] at atFirst itsCount
  refine ⟨first, count, atFirst, itsCount, ?_⟩
  intro i firstLe iLt
  have above := Nat.mul_le_mul_right (2 ^ sort.msgGrainPower) firstLe
  have below : (i + 1) * 2 ^ sort.msgGrainPower ≤ (first + count) * 2 ^ sort.msgGrainPower :=
    Nat.mul_le_mul_right _ iLt
  rw [Nat.add_mul first] at below
  omega

/-- A write that covers a whole grain is trimmed. -/
theorem Sound.trims_of_covers {sort : MessageSort} (sound : sort.Sound) {write : Write}
    (placed : sort.Placed write) : sort.Trims write := by
  rcases sound.tables.marks placed with ⟨slot, r, array, offset, diff, first, count, marks⟩
  have nonempty := marks.nonempty
  have aligned : offset + (write.offset + diff) = first * 2 ^ sort.msgGrainPower := by
    rw [← Nat.add_assoc]
    exact marks.aligned
  have atFirst := (marks.covers first).mpr ⟨Nat.le_refl _, Nat.lt_add_of_pos_right nonempty⟩
  rcases sound.tables.covers_iff atFirst marks.registered with ⟨itsOffset, refers, _, _, coversIff⟩
  rw [marks.refers, Option.some.injEq, SlotToRegion.mk.injEq] at refers
  rcases refers with ⟨_, rfl⟩
  have last := ((coversIff _).mp ((marks.covers (first + count - 1)).mpr (by omega))).2
  rw [Nat.sub_add_cancel (by omega), Nat.add_mul] at last
  rcases (sound.tidy _ _ marks.found).enclosed.push nonempty marks.fits write.msgId with
    ⟨changed, pushes, _, _, memory⟩
  refine ⟨⟨r.region, offset⟩, array, _, write.offset + diff, count * 2 ^ sort.msgGrainPower,
    marks.refers, marks.found, by rw [marks.push, pushes, Option.map_some],
    ⟨⟨first, ?_⟩, ⟨count, Nat.mul_comm _ _⟩, by omega, by omega⟩, ?_, ?_,
    ⟨first, count, aligned, rfl, marks.fits, ?_⟩⟩
  · rw [Nat.mul_comm]
    exact aligned
  · -- every other part consists of grains that are covered, too
    intro otherOffset otherSize part
    rcases part.covers with ⟨otherFirst, otherCount, otherAligned, rfl, grains⟩
    by_cases none : otherCount = 0
    · rw [none, Nat.zero_mul]
      exact ⟨Nat.zero_le _, fun positive => absurd positive (Nat.lt_irrefl 0)⟩
    · have lower := (marks.covers _).mp
        ((coversIff _).mpr (grains otherFirst (by omega) (by omega)))
      have upper := (marks.covers _).mp
        ((coversIff _).mpr (grains (otherFirst + otherCount - 1) (by omega) (by omega)))
      have starts := Nat.mul_le_mul_right (2 ^ sort.msgGrainPower) lower.1
      have ends : (otherFirst + otherCount) * 2 ^ sort.msgGrainPower ≤
          (first + count) * 2 ^ sort.msgGrainPower := Nat.mul_le_mul_right _ (by omega)
      rw [Nat.add_mul, Nat.add_mul] at ends
      simp only at otherAligned
      exact ⟨by omega, fun _ => ⟨by omega, by omega⟩⟩
  · intro short
    exact absurd atFirst (short r first)
  · intro j
    simp only [getElem?_set_writes marks.found]
    split
    next => rw [Option.map_some, memory]
    next => rfl

theorem Shifts.trims {sort : MessageSort} {write : Write} {k boundary offset newOffset : ℕ}
    {array : Writes} (shifts : Shifts sort write k boundary array offset newOffset)
    (alike : Alike askNumbered sort { sort with
      writes := sort.writes.set k (shifted array boundary)
      dirty := sort.dirty.insert k }) : sort.Trims write := by
  refine ⟨⟨k, offset⟩, array, _, newOffset, 0, shifts.refers, shifts.found, shifts.push,
    ⟨⟨boundary, ?_⟩, ⟨0, rfl⟩, shifts.lower, shifts.upper⟩, ?_, fun _ => ⟨rfl, alike⟩,
    ⟨boundary, 0, shifts.aligned, (Nat.zero_mul _).symm, shifts.fits, ?_⟩⟩
  · rw [Nat.mul_comm]
    exact shifts.aligned
  · intro otherOffset otherSize part
    rcases part.covers with ⟨otherFirst, otherCount, _, rfl, grains⟩
    have none : otherCount = 0 := by
      by_contra positive
      exact shifts.short otherFirst (grains otherFirst (by omega) (by omega))
    rw [none, Nat.zero_mul]
    exact ⟨Nat.le_refl 0, fun positive => absurd positive (Nat.lt_irrefl 0)⟩
  · intro j
    simp only [getElem?_set_writes shifts.found]
    split <;> rfl

theorem shifted_eq {array : Writes} {boundary : ℕ} (length : array.memory.length ≤ sizeMax)
    (fits : boundary ≤ array.memory.length) (positive : 0 < boundary) :
    shifted array boundary =
      ⟨Nat.min array.min boundary, Nat.max array.max (boundary - 1), array.memory⟩ := by
  rw [shifted, subSize_of_le positive (Nat.le_trans fits length)]

/-- Inserting a region that is dirty changes nothing. -/
theorem Roomy.insert_of_mem {sort : MessageSort} (roomy : sort.Roomy) {k : ℕ}
    (member : k ∈ sort.dirty.elements) : sort.dirty.insert k = sort.dirty := by
  have dirtyMin := roomy.min
  have room := roomy.room
  have bound := roomy.known k member
  have present := (roomy.wellFormed.contains_iff (x := k) (by omega) (by omega)).mpr
    (by rw [dirtyMin]; exact member)
  rw [SparseSet.insert, if_pos present]

/-- A harmless write lets a window end later, if anything. -/
theorem Sound.stretch {sort : MessageSort} (sound : sort.Sound) {write : Write}
    {k boundary offset newOffset i : ℕ} {array : Writes}
    (shifts : Shifts sort write k boundary array offset newOffset) (positive : 0 < boundary)
    (below : array.min ≤ boundary) (marked : array.label i ≠ 0) :
    Stretched sort { sort with
        writes := sort.writes.set k (shifted array boundary)
        dirty := sort.dirty.insert k } ∧
      Sound { sort with
        writes := sort.writes.set k (shifted array boundary)
        dirty := sort.dirty.insert k } := by
  have fits := shifts.fits
  have tidy := sound.tidy k array shifts.found
  have lengths := tidy.length
  have active : array.Active := by
    rcases tidy.window with idle | active
    · exact absurd (idle.unmarked i) marked
    · exact active
  have ordered := active.ordered
  have bounded := active.bounded
  rcases sound.pending k array shifts.found active with ⟨member, listed⟩
  have min : Nat.min array.min boundary = array.min := Nat.min_eq_left below
  have later : Nat.max array.max (boundary - 1) < array.memory.length :=
    Nat.max_lt.mpr ⟨bounded, by omega⟩
  have le : array.max ≤ Nat.max array.max (boundary - 1) := Nat.le_max_left _ _
  rw [(sound.tables.roomy sound.known).insert_of_mem member, shifted_eq lengths fits positive, min]
  constructor
  · refine Or.inr ⟨k, array, _, shifts.found, ⟨active.spanning, ⟨i, marked⟩, lengths, ?_,
      _, le, later, rfl⟩, rfl⟩
    intro j
    have small := tidy.labels j
    omega
  · refine sound.update shifts.found ⟨lengths, tidy.labels, Or.inr ⟨?_, later, active.marked, ?_⟩⟩
      rfl sound.tables.dirty ⟨rfl, rfl⟩ (fun _ => ⟨member, listed⟩) (fun j old _ => old) sound.known
    · exact Nat.le_trans ordered le
    · intro j isMarked
      have inside := active.window j isMarked
      exact ⟨inside.1, Nat.le_trans inside.2 le⟩

theorem Sound.trims_of_harmless {sort : MessageSort} (sound : sort.Sound) {write : Write}
    (harmless : sort.Harmless write) : sort.Trims write := by
  rcases harmless with ⟨k, boundary, array, touching, found, positive, below, i, marked⟩
  rcases sound.tables.shifts touching with ⟨itsArray, offset, newOffset, shifts⟩
  have same := shifts.found
  rw [found, Option.some.injEq] at same
  subst same
  exact shifts.trims (sound.stretch shifts positive below marked).1.alike

/-- A write that touches the start of its region lets the window end before it begins. -/
theorem corrupt_of_zero {array : Writes} (length : array.memory.length ≤ sizeMax) :
    (shifted array 0).Corrupt := by
  left
  have min : Nat.min array.min 0 = 0 := Nat.min_eq_right (Nat.zero_le _)
  have max : sizeMax ≤ Nat.max array.max (subSize 0 1) := Nat.le_max_right _ _
  rw [shifted, min, Writes.pop, if_neg (Nat.not_lt_zero _), if_neg]
  exact Nat.not_lt_of_le (Nat.le_trans length max)

/-- A window that began behind the boundary now begins with an entry without a mark. -/
theorem corrupt_of_lt {array : Writes} (active : array.Active) {boundary : ℕ}
    (length : array.memory.length ≤ sizeMax) (positive : 0 < boundary)
    (before : boundary < array.min) : (shifted array boundary).Corrupt := by
  have ordered := active.ordered
  have bounded := active.bounded
  have min : Nat.min array.min boundary = boundary := Nat.min_eq_right (Nat.le_of_lt before)
  have max : Nat.max array.max (boundary - 1) = array.max := Nat.max_eq_left (by omega)
  rw [shifted_eq length (by omega) positive, min, max]
  apply Writes.Spanning.corrupt
  · refine ⟨by show boundary ≤ array.max; omega, bounded, ?_⟩
    intro i marked
    have inside := active.window i marked
    exact ⟨by show boundary ≤ i; omega, inside.2⟩
  · by_contra marked
    have inside := active.window boundary marked
    omega

/-- Two boundaries of a region without marks enclose a window without marks. -/
theorem corrupt_of_ne {array : Writes} (unmarked : ∀ i, array.label i = 0)
    (empty : array.min = sizeMax ∧ array.max = 0) {boundary other : ℕ}
    (length : array.memory.length ≤ sizeMax) (fits : boundary ≤ array.memory.length)
    (otherFits : other ≤ array.memory.length) (positive : 0 < boundary)
    (otherPositive : 0 < other) (differs : other ≠ boundary) :
    (shifted (shifted array boundary) other).Corrupt := by
  have least : Nat.min sizeMax boundary = boundary := Nat.min_eq_right (Nat.le_trans fits length)
  have most : Nat.max 0 (boundary - 1) = boundary - 1 := Nat.max_eq_right (Nat.zero_le _)
  have once : shifted array boundary = ⟨boundary, boundary - 1, array.memory⟩ := by
    rw [shifted_eq length fits positive, empty.1, empty.2, least, most]
  have twice : shifted ⟨boundary, boundary - 1, array.memory⟩ other =
      ⟨Nat.min boundary other, Nat.max (boundary - 1) (other - 1), array.memory⟩ :=
    shifted_eq length otherFits otherPositive
  rw [once, twice]
  apply Writes.Spanning.corrupt
  · refine ⟨?_, ?_, fun i marked => absurd (unmarked i) marked⟩
    · show Nat.min boundary other ≤ Nat.max (boundary - 1) (other - 1)
      rcases Nat.lt_or_gt_of_ne differs with before | after
      · exact Nat.le_trans (Nat.min_le_right _ _)
          (Nat.le_trans (Nat.le_sub_one_of_lt before) (Nat.le_max_left _ _))
      · exact Nat.le_trans (Nat.min_le_left _ _)
          (Nat.le_trans (Nat.le_sub_one_of_lt after) (Nat.le_max_right _ _))
    · show Nat.max (boundary - 1) (other - 1) < array.memory.length
      exact Nat.max_lt.mpr ⟨by omega, by omega⟩
  · exact unmarked _

theorem Shifts.astray {sort : MessageSort} {write : Write} {k boundary offset newOffset : ℕ}
    {array : Writes} (shifts : Shifts sort write k boundary array offset newOffset)
    (roomy : sort.Roomy) (corrupt : (shifted array boundary).Corrupt) :
    Astray { sort with
      writes := sort.writes.set k (shifted array boundary)
      dirty := sort.dirty.insert k } := by
  have bound : k < sort.writes.length := (List.getElem?_eq_some_iff.mp shifts.found).1
  rcases roomy.insert bound (shifted array boundary) with ⟨inserted, elements⟩
  refine ⟨inserted, k, ?_, _, List.getElem?_set_self bound, corrupt⟩
  show k ∈ (sort.dirty.insert k).elements
  rw [elements]
  split
  next member => exact member
  next => exact List.mem_append_right _ (List.mem_singleton.mpr rfl)

/-- A region without marks still has none. -/
theorem Shifts.calm {sort : MessageSort} {write : Write} {k boundary offset newOffset : ℕ}
    {array : Writes} (shifts : Shifts sort write k boundary array offset newOffset)
    (sound : sort.Sound) (idle : array.Idle) (positive : 0 < boundary) :
    Calm { sort with
      writes := sort.writes.set k (shifted array boundary)
      dirty := sort.dirty.insert k } := by
  have calm := sound.calm
  have tidy := sound.tidy k array shifts.found
  have bound : k < sort.writes.length := (List.getElem?_eq_some_iff.mp shifts.found).1
  apply calm.set shifts.found _ (calm.roomy.insert bound _).1
  have fits := shifts.fits
  have least : Nat.min sizeMax boundary = boundary :=
    Nat.min_eq_right (Nat.le_trans fits tidy.length)
  have most : Nat.max 0 (boundary - 1) = boundary - 1 := Nat.max_eq_right (Nat.zero_le _)
  rw [shifted_eq tidy.length fits positive, idle.min, idle.max, least, most]
  exact ⟨tidy.length, tidy.labels, Or.inl ⟨Nat.sub_lt positive Nat.one_pos, idle.unmarked⟩⟩

theorem Touches.of_sameTables {sort after : MessageSort} {write : Write} {k boundary : ℕ}
    (touching : sort.Touches write k boundary) (same : SameTables sort after) :
    after.Touches write k boundary := by
  rcases touching with ⟨inside, nonempty, short, touches⟩
  refine ⟨?_, nonempty, ?_, ?_⟩
  · simp only [Registered, same.memslots]
    exact inside
  · intro r i covers
    exact short r i ((same.covers_iff write r i).mp covers)
  · rw [same.slotToRegion, same.msgGrainPower]
    exact touches

/-- A short write to a region without marks is noticed once another boundary is touched. -/
theorem Sound.not_alike_of_other {sort : MessageSort} (sound : sort.Sound) {write other : Write}
    {k boundary otherBoundary offset newOffset : ℕ} {array : Writes}
    (shifts : Shifts sort write k boundary array offset newOffset) (idle : array.Idle)
    (positive : 0 < boundary) (small : other.msgId < 2 ^ 31)
    (touching : sort.Touches other k otherBoundary) (otherPositive : 0 < otherBoundary)
    (differs : otherBoundary ≠ boundary) :
    ¬Alike askNumbered sort { sort with
      writes := sort.writes.set k (shifted array boundary)
      dirty := sort.dirty.insert k } := by
  intro alike
  have tables := sound.tables
  have roomy := tables.roomy sound.known
  have tidy := sound.tidy k array shifts.found
  have bound : k < sort.writes.length := (List.getElem?_eq_some_iff.mp shifts.found).1
  rcases roomy.insert bound (shifted array boundary) with ⟨inserted, _⟩
  have afterTables := tables.update shifts.found (show (shifted array boundary).memory.length = _
    from rfl) inserted.wellFormed (SparseSet.range_insert _ _)
  generalize itsAfter : ({ sort with
    writes := sort.writes.set k (shifted array boundary)
    dirty := sort.dirty.insert k } : MessageSort) = after at alike inserted afterTables
  have same : SameTables sort after := by
    rw [← itsAfter]
    exact ⟨rfl, rfl, rfl, rfl, rfl⟩
  rcases tables.shifts touching with ⟨otherArray, otherOffset, moved, otherShifts⟩
  rcases afterTables.shifts (touching.of_sameTables same) with
    ⟨thirdArray, thirdOffset, thirdMoved, thirdShifts⟩
  have found := otherShifts.found
  rw [shifts.found, Option.some.injEq] at found
  subst found
  have foundAfter := thirdShifts.found
  rw [← itsAfter, List.getElem?_set_self bound, Option.some.injEq] at foundAfter
  subst foundAfter
  rcases alike.agree ⟨.pushWrite other, small⟩ with
    ⟨fails, _⟩ | ⟨answer, firstAfter, secondAfter, answered, answeredToo, alikeAfter⟩
  · simp [askNumbered, ask, otherShifts.push] at fails
  · simp only [askNumbered, ask, otherShifts.push, thirdShifts.push, Option.map_some,
      Option.some.injEq, Prod.mk.injEq] at answered answeredToo
    rw [← answered.2, ← answeredToo.2] at alikeAfter
    apply (otherShifts.calm sound idle otherPositive).not_alike _ alikeAfter
    apply thirdShifts.astray inserted
    exact corrupt_of_ne idle.unmarked ⟨idle.min, idle.max⟩ tidy.length shifts.fits
      otherShifts.fits positive otherPositive differs

/-- Where `pushWrite` trims a write, it covers a whole grain, or it is harmless, or it is the only
one of its kind. -/
theorem Sound.cases_of_trims {sort : MessageSort} (sound : sort.Sound) {write : Write} {slot : Slot}
    (registered : sort.Registered write.slot slot)
    (inside : write.offset + write.size ≤ slot.size) (nonempty : 0 < write.size)
    (trims : sort.Trims write) :
    (∃ r k, sort.Covers write r k) ∨ sort.Harmless write ∨ sort.Secluded write := by
  rcases trims with ⟨entry, itsArray, after, itsOffset, itsSize, trimmed⟩
  by_cases covered : ∃ r k, sort.Covers write r k
  · exact Or.inl covered
  · have short : ∀ r i, ¬sort.Covers write r i := fun r i covers => covered ⟨r, i, covers⟩
    have alike := (trimmed.silent short).2
    rcases sound.tables.touches_or_fails registered inside nonempty short with
      ⟨k, boundary, touching⟩ | fails
    · rcases sound.tables.shifts touching with ⟨array, offset, newOffset, shifts⟩
      have pushes := trimmed.push
      rw [shifts.push, Option.some.injEq, Prod.mk.injEq] at pushes
      rw [← pushes.1] at alike
      have tidy := sound.tidy k array shifts.found
      have unnoticed : ¬(shifted array boundary).Corrupt := fun corrupt =>
        sound.calm.not_alike (shifts.astray (sound.tables.roomy sound.known) corrupt) alike
      have positive : 0 < boundary := by
        by_contra zero
        rw [Nat.eq_zero_of_not_pos zero] at unnoticed
        exact unnoticed (corrupt_of_zero tidy.length)
      rcases tidy.window with idle | active
      · refine Or.inr (Or.inr ⟨k, boundary, array, touching, shifts.found, positive,
          idle.unmarked, ?_⟩)
        intro other otherBoundary small otherTouching otherPositive
        by_contra differs
        exact sound.not_alike_of_other shifts idle positive small otherTouching otherPositive
          differs alike
      · refine Or.inr (Or.inl ⟨k, boundary, array, touching, shifts.found, positive, ?_,
          array.min, active.marked⟩)
        by_contra before
        exact unnoticed (corrupt_of_lt active tidy.length positive (Nat.lt_of_not_le before))
    · rw [trimmed.push] at fails
      cases fails

namespace Recorded

/-- Writes to live slots cover a whole grain, or they are harmless or of size zero. -/
def Careful (state : Recorded) : Call → Prop
  | .pushWrite write => write.msgId < 2 ^ 31 ∧
      (∃ slot, state.live write.slot = some slot ∧ write.offset + write.size ≤ slot.size) ∧
      (write.size = 0 ∨ (∃ r k, state.sort.Covers write r k) ∨ state.sort.Harmless write)
  | call => state.Permitted call

theorem Sound.careful {state : Recorded} (sound : state.Sound) {call : Call}
    (careful : state.Careful call) :
    ∃ after, call.run state.sort = some after ∧ Sound ⟨after, call.record state.live⟩ := by
  cases call with
  | pushWrite write =>
      rcases careful with ⟨small, ⟨slot, live, inside⟩, nothing | ⟨r, k, covers⟩ | harmless⟩
      · refine ⟨state.sort, ?_, sound⟩
        rw [Call.run, MessageSort.pushWrite, if_pos nothing, Option.map_some]
      · have valid : state.sort.Valid write :=
          ⟨small, ⟨slot, (sound.registered _ _).mp live, inside⟩, r, k, covers⟩
        have permitted : state.Permitted (.pushWrite write) := valid
        exact sound.run permitted
      · rcases harmless with ⟨k, boundary, array, touching, found, positive, below, i, marked⟩
        rcases sound.sort.tables.shifts touching with ⟨itsArray, offset, newOffset, shifts⟩
        have same := shifts.found
        rw [found, Option.some.injEq] at same
        subst same
        refine ⟨_, ?_, (sound.sort.stretch shifts positive below marked).2, sound.registered⟩
        rw [Call.run, shifts.push, Option.map_some]
  | setSlotRange range => exact sound.run careful
  | addRegister id base size => exact sound.run careful
  | delRegister id => exact sound.run careful
  | popWrite => exact sound.run careful

end Recorded

/-- In runs of writes that cover a whole grain or are harmless, `pushWrite` trims every further
write of this kind.  It trims no other one but those to a region without marks of which no other
boundary can be touched. -/
theorem trims_of_careful {msgGrainPower : ℕ} {state : Recorded}
    (run : Transition.Reachable Recorded.Step Recorded.Careful (.initial msgGrainPower) state)
    {write : Write} {slot : Slot} (live : state.live write.slot = some slot)
    (inside : write.offset + write.size ≤ slot.size) (nonempty : 0 < write.size) :
    ((∃ r k, state.sort.Covers write r k) ∨ state.sort.Harmless write → state.sort.Trims write) ∧
      (state.sort.Trims write →
        (∃ r k, state.sort.Covers write r k) ∨ state.sort.Harmless write ∨
          state.sort.Secluded write) := by
  have sound : state.Sound := by
    apply run.invariant (Recorded.sound_initial msgGrainPower)
    rintro before call ⟨after, live⟩ sound careful ⟨taken, records⟩
    rcases sound.careful careful with ⟨found, runs, afterSound⟩
    simp only [runs, Option.some.injEq] at taken records
    rw [records, ← taken]
    exact afterSound
  have registered := (sound.registered write.slot slot).mp live
  constructor
  · rintro (covers | harmless)
    · exact sound.sort.trims_of_covers ⟨⟨slot, registered, inside⟩, covers⟩
    · exact sound.sort.trims_of_harmless harmless
  · exact sound.sort.cases_of_trims registered inside nonempty

theorem careful_fourGrains : ∃ live : ℕ → Option Slot, live 0 = some ⟨0, 16, 32⟩ ∧
    Transition.Reachable Recorded.Step Recorded.Careful (.initial 3) ⟨fourGrains, live⟩ := by
  have first : Recorded.Step (.initial 3) (.setSlotRange 1)
      ⟨(MessageSort.setSlotRange .none (.initial 3) 1).1, fun _ => none⟩ := ⟨rfl, rfl⟩
  have second : Recorded.Step ⟨(MessageSort.setSlotRange .none (.initial 3) 1).1, fun _ => none⟩
      (.addRegister 0 16 32) ⟨fourGrains, (Call.addRegister 0 16 32).record fun _ => none⟩ :=
    ⟨rfl, rfl⟩
  have allowed : Recorded.Careful (.initial 3) (.setSlotRange 1) := Nat.zero_le 1
  have allowedToo : Recorded.Careful
      ⟨(MessageSort.setSlotRange .none (.initial 3) 1).1, fun _ => none⟩ (.addRegister 0 16 32) :=
    ⟨by decide, by decide, by decide, Recorded.unmarked_create [] (by simp) rfl⟩
  exact ⟨_, rfl, (Transition.Reachable.refl.tail allowed first).tail allowedToo second⟩

theorem not_covers_fourGrains {sort : MessageSort} (same : SameTables fourGrains sort)
    {msgId offset size : ℕ}
    (narrow : ∀ i, ¬(offset ≤ i * 8 ∧ (i + 1) * 8 ≤ offset + size)) (r : Region) (i : ℕ) :
    ¬sort.Covers ⟨msgId, 0, offset, size⟩ r i := by
  rw [same.covers_iff]
  rintro ⟨member, slot, _, registered, _, lower, upper⟩
  have itsSlot : slot = ⟨0, 16, 32⟩ := (Option.some.inj registered.1).symm
  have itsRegion : r = ⟨0, 16, 32⟩ := List.mem_singleton.mp member
  rw [itsSlot, itsRegion, Nat.shiftLeft_eq] at lower upper
  change 16 + offset ≤ 16 + i * 8 at lower
  change 16 + (i + 1) * 8 ≤ 16 + offset + size at upper
  exact narrow i ⟨by omega, by omega⟩

/-- The table once grain 1 is marked. -/
def markedGrain : MessageSort :=
  { fourGrains with writes := [⟨1, 1, [0, 2, 0, 0]⟩], dirty := ⟨0, 0, 1, [0], [0]⟩ }

/-- While grain 1 is marked, a write that touches the boundary before grain 3 is harmless. -/
theorem trims_of_careful_marked : markedGrain.Trims ⟨2, 0, 20, 6⟩ := by
  rcases careful_fourGrains with ⟨live, isLive, run⟩
  have placed := placed_fourGrains (SameTables.refl fourGrains) 1 (show 8 ≤ 8 * (8 / 8) by decide)
    (Nat.le_refl 8) (by decide)
  have careful : Recorded.Careful ⟨fourGrains, live⟩ (.pushWrite ⟨1, 0, 8, 8⟩) :=
    ⟨by decide, ⟨_, isLive, by decide⟩, Or.inr (Or.inl placed.covers)⟩
  have taken : (Call.pushWrite ⟨1, 0, 8, 8⟩).run fourGrains = some markedGrain := by decide
  have pushed : Recorded.Step ⟨fourGrains, live⟩ (.pushWrite ⟨1, 0, 8, 8⟩) ⟨markedGrain, live⟩ :=
    ⟨taken, rfl⟩
  have touching : markedGrain.Touches ⟨2, 0, 20, 6⟩ 0 3 := by
    refine ⟨⟨⟨0, 16, 32⟩, ⟨rfl, by decide⟩, by decide⟩, by decide, ?_, 0, rfl, by decide,
      by decide⟩
    apply not_covers_fourGrains ⟨rfl, rfl, rfl, rfl, rfl⟩
    intro i
    omega
  have harmless : markedGrain.Harmless ⟨2, 0, 20, 6⟩ :=
    ⟨0, 3, _, touching, rfl, by decide, by decide, 1, by decide⟩
  exact (trims_of_careful (run.tail careful pushed) isLive (by decide) (by decide)).1
    (Or.inr harmless)

/-- A write of the last grain, and a pop. -/
def lastGrain : List {query : Query // query.Numbered} :=
  [⟨.pushWrite ⟨1, 0, 24, 8⟩, show 1 < 2 ^ 31 by decide⟩, ⟨.popWrite, trivial⟩]

/-- After a write of 6 bytes from offset 4 on, a write of the last grain is popped behind two grains
that no message was written to. -/
theorem not_trims : ¬∀ (msgGrainPower : ℕ) (state : Recorded),
    Transition.Reachable Recorded.Step Recorded.Careful (.initial msgGrainPower) state →
      ∀ (write : Write) (slot : Slot), state.live write.slot = some slot →
        write.offset + write.size ≤ slot.size → 0 < write.size → state.sort.Trims write := by
  intro trims
  rcases careful_fourGrains with ⟨live, isLive, run⟩
  rcases trims 3 _ run ⟨0, 0, 4, 6⟩ _ isLive (by decide) (by decide) with
    ⟨entry, array, after, offset, size, trimmed⟩
  have short : ∀ r i, ¬fourGrains.Covers ⟨0, 0, 4, 6⟩ r i := by
    apply not_covers_fourGrains (SameTables.refl fourGrains)
    intro i
    omega
  have alike := (trimmed.silent short).2
  have pushes : fourGrains.pushWrite 0 0 4 6 = some (⟨[⟨0, 16, 32⟩], [⟨0, 16, 32⟩], [⟨0, 16, 32⟩],
      [⟨0, 0⟩], [⟨1, 0, [0, 0, 0, 0]⟩], ⟨0, 0, 1, [0], [0]⟩, 3⟩, 8, 0) := by
    decide
  have same := trimmed.push
  rw [pushes, Option.some.injEq, Prod.mk.injEq] at same
  have expected : answers askNumbered fourGrains lastGrain =
      [some (.pushed 24 8), some (.popped (some ⟨1, 40, 8⟩))] := by
    decide
  have bogus : answers askNumbered ⟨[⟨0, 16, 32⟩], [⟨0, 16, 32⟩], [⟨0, 16, 32⟩], [⟨0, 0⟩],
      [⟨1, 0, [0, 0, 0, 0]⟩], ⟨0, 0, 1, [0], [0]⟩, 3⟩ lastGrain =
        [some (.pushed 24 8), some (.popped (some ⟨2 ^ 32 - 1, 24, 16⟩))] := by
    decide
  have asked := alike lastGrain
  rw [← same.1, bogus] at asked
  exact absurd (expected.symm.trans asked) (by decide)

end MessageSort

end Talpf
