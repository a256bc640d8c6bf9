import Talpf.Library.Painting
import Talpf.MessageSort.Runs

/-!
# Resolution of conflicting writes

The marks of all regions are a canvas.  Pushing a write paints the grains that
it covers, with the message number as the priority, and popping cuts pieces
off.  Hence the pieces that are popped do not depend on the order in which the
writes were pushed, and each grain is popped with the largest of the message
numbers that were written to it.
-/

namespace Talpf

namespace MessageSort

open Painting

/-- Push writes one after the other. -/
def pushWrites (sort : MessageSort) : List Write → Option MessageSort
  | [] => some sort
  | write :: rest =>
      (sort.pushWrite write.msgId write.slot write.offset write.size).bind fun pushed =>
        pushWrites pushed.1 rest

/-- Pop until nothing is left. -/
inductive Drains : MessageSort → List Popped → MessageSort → Prop
  | done {sort after : MessageSort} : sort.popWrite = some (none, after) → Drains sort [] after
  | next {sort middle after : MessageSort} {popped : Popped} {rest : List Popped} :
      sort.popWrite = some (some popped, middle) → Drains middle rest after →
      Drains sort (popped :: rest) after

/-- An address that was popped. -/
def Popped.Holds (popped : Popped) (address : ℕ) : Prop :=
  popped.base ≤ address ∧ address < popped.base + popped.size

/-- The addresses of the grains that a write covers. -/
def Part (sort : MessageSort) (write : Write) (address : ℕ) : Prop :=
  ∃ r k, sort.Covers write r k ∧ r.base + (k <<< sort.msgGrainPower) ≤ address ∧
    address < r.base + ((k + 1) <<< sort.msgGrainPower)

/-- A grain that was popped with a message number. -/
def Labelled (sort : MessageSort) (popped : List Popped) (r : Region) (k id : ℕ) : Prop :=
  ∃ piece ∈ popped, piece.base ≤ r.base + (k <<< sort.msgGrainPower) ∧
    r.base + ((k + 1) <<< sort.msgGrainPower) ≤ piece.base + piece.size ∧ piece.msgId = id

/-- A whole grain of a region. -/
def IsGrain (sort : MessageSort) (r : Region) (k : ℕ) : Prop :=
  r ∈ sort.sortedRegions ∧ (k + 1) <<< sort.msgGrainPower ≤ r.size

/-- What the popped writes are, for the writes that were pushed. -/
structure Resolved (sort : MessageSort) (writes : List Write) (popped : List Popped) : Prop where
  nonempty : ∀ piece ∈ popped, 0 < piece.size
  disjoint : popped.Pairwise fun first second =>
    ∀ address, ¬(first.Holds address ∧ second.Holds address)
  union : ∀ address, (∃ piece ∈ popped, piece.Holds address) ↔
    ∃ write ∈ writes, sort.Part write address
  labels : ∀ r k, sort.IsGrain r k → ∀ id, sort.Labelled popped r k id ↔
    IsGreatest {c | ∃ write ∈ writes, sort.Covers write r k ∧ write.msgId = c} id

/-- The marks of all grains, by region number. -/
def canvas (sort : MessageSort) : ℕ × ℕ → ℕ := fun grain => sort.label grain.1 grain.2

/-- A write as a stroke. -/
def stroke (sort : MessageSort) (write : Write) : Stroke (ℕ × ℕ) :=
  ({grain | ∃ r, r.region = grain.1 ∧ sort.Covers write r grain.2}, write.msgId)

theorem Pushed.canvas {sort after : MessageSort} {write : Write} {offset size : ℕ}
    (pushed : Pushed sort write after offset size) :
    after.canvas = paint sort.canvas (sort.stroke write) := by
  funext grain
  by_cases covered : grain ∈ (sort.stroke write).1
  · rw [paint_of_mem covered]
    rcases covered with ⟨r, itsRegion, covers⟩
    have raised := pushed.raised r grain.2 covers
    rw [itsRegion] at raised
    exact raised
  · rw [paint_of_notMem covered]
    apply pushed.others
    intro r covers itsRegion
    exact covered ⟨r, itsRegion, covers⟩

theorem SameTables.stroke {sort after : MessageSort} (same : SameTables sort after)
    (write : Write) : after.stroke write = sort.stroke write := by
  simp only [MessageSort.stroke, same.covers_iff]

theorem Sound.pushWrites {sort : MessageSort} (sound : sort.Sound) {writes : List Write}
    (valid : ∀ write ∈ writes, sort.Valid write) :
    ∃ after, sort.pushWrites writes = some after ∧ after.Sound ∧ SameTables sort after ∧
      after.canvas = paintAll sort.canvas (writes.map sort.stroke) := by
  induction writes generalizing sort with
  | nil => exact ⟨sort, rfl, sound, SameTables.refl sort, rfl⟩
  | cons write rest ih =>
      rcases sound.pushWrite (valid write List.mem_cons_self) with ⟨middle, offset, size, pushed⟩
      have same := pushed.sameTables
      have validRest : ∀ other ∈ rest, middle.Valid other := by
        intro other member
        exact (same.valid_iff other).mpr (valid other (List.mem_cons_of_mem _ member))
      rcases ih pushed.sound validRest with ⟨after, pushes, afterSound, afterSame, painted⟩
      refine ⟨after, ?_, afterSound, same.trans afterSame, ?_⟩
      · simp only [MessageSort.pushWrites, pushed.push, Option.bind_some]
        exact pushes
      · have strokes : rest.map middle.stroke = rest.map sort.stroke :=
          List.map_congr_left fun other _ => same.stroke other
        rw [painted, strokes, pushed.canvas]
        rfl

/-- The grains that a popped write consists of. -/
def piece (sort : MessageSort) (popped : Popped) : Stroke (ℕ × ℕ) :=
  ({grain | ∃ r, r.region = grain.1 ∧ sort.IsGrain r grain.2 ∧
    popped.base ≤ r.base + (grain.2 <<< sort.msgGrainPower) ∧
    r.base + ((grain.2 + 1) <<< sort.msgGrainPower) ≤ popped.base + popped.size}, popped.msgId)

/-- A popped write is a run of grains in a region. -/
structure Aligned (sort : MessageSort) (popped : Popped) (r : Region) (first count : ℕ) :
    Prop where
  member : r ∈ sort.sortedRegions
  nonempty : 0 < count
  inside : (first + count) * 2 ^ sort.msgGrainPower ≤ r.size
  base : popped.base = r.base + first * 2 ^ sort.msgGrainPower
  size : popped.size = count * 2 ^ sort.msgGrainPower

theorem Cleared.aligned {sort after : MessageSort} {popped : Popped} {r : Region}
    {first count : ℕ} (cleared : Cleared sort popped after r first count) :
    Aligned sort popped r first count where
  member := cleared.member
  nonempty := cleared.nonempty
  inside := by
    have inside := cleared.inside
    rw [Nat.shiftRight_eq_div_pow, Nat.le_div_iff_mul_le (Nat.two_pow_pos _)] at inside
    exact inside
  base := by rw [cleared.base, Nat.shiftLeft_eq]
  size := by rw [cleared.size, Nat.shiftLeft_eq]

theorem Aligned.mem_piece_iff {sort : MessageSort} (tables : sort.Tables) {popped : Popped}
    {r : Region} {first count : ℕ} (aligned : Aligned sort popped r first count)
    (grain : ℕ × ℕ) : grain ∈ (sort.piece popped).1 ↔
      grain.1 = r.region ∧ first ≤ grain.2 ∧ grain.2 < first + count := by
  have positive : 0 < 2 ^ sort.msgGrainPower := Nat.two_pow_pos _
  have inside := aligned.inside
  have base := aligned.base
  have size := aligned.size
  rw [Nat.add_mul] at inside
  constructor
  · rintro ⟨other, itsRegion, ⟨member, contained⟩, lower, upper⟩
    simp only [Nat.shiftLeft_eq] at contained lower upper
    have width : (grain.2 + 1) * 2 ^ sort.msgGrainPower =
        grain.2 * 2 ^ sort.msgGrainPower + 2 ^ sort.msgGrainPower := by
      rw [Nat.add_mul, Nat.one_mul]
    have same := Recorded.eq_of_touching tables.apart member aligned.member (by omega) (by omega)
    subst same
    refine ⟨itsRegion.symm, ?_, ?_⟩
    · exact Nat.le_of_mul_le_mul_right (by omega) positive
    · have top : (grain.2 + 1) * 2 ^ sort.msgGrainPower ≤
          (first + count) * 2 ^ sort.msgGrainPower := by
        rw [Nat.add_mul first]
        omega
      exact Nat.le_of_mul_le_mul_right top positive
  · rintro ⟨itsRegion, lower, upper⟩
    have bottom := Nat.mul_le_mul_right (2 ^ sort.msgGrainPower) lower
    have top := Nat.mul_le_mul_right (2 ^ sort.msgGrainPower) (Nat.add_one_le_iff.mpr upper)
    rw [Nat.add_mul first] at top
    refine ⟨r, itsRegion.symm, ⟨aligned.member, ?_⟩, ?_, ?_⟩
    · rw [Nat.shiftLeft_eq]
      exact top.trans inside
    · rw [Nat.shiftLeft_eq, base]
      omega
    · rw [Nat.shiftLeft_eq, base, size]
      omega

theorem Cleared.canvas {sort after : MessageSort} (tables : sort.Tables) {popped : Popped}
    {r : Region} {first count : ℕ} (cleared : Cleared sort popped after r first count) :
    after.canvas = erase sort.canvas (sort.piece popped).1 ∧
      (∀ grain ∈ (sort.piece popped).1, sort.canvas grain = popped.msgId + 1) ∧
      (r.region, first) ∈ (sort.piece popped).1 := by
  have pieceIff := cleared.aligned.mem_piece_iff tables
  refine ⟨?_, ?_, ?_⟩
  · funext grain
    rw [MessageSort.canvas, cleared.label]
    by_cases cut : grain ∈ (sort.piece popped).1
    · rw [erase_of_mem cut, if_pos ((pieceIff grain).mp cut)]
    · rw [erase_of_notMem cut, if_neg fun inside => cut ((pieceIff grain).mpr inside)]
      rfl
  · intro grain cut
    rcases (pieceIff grain).mp cut with ⟨itsRegion, lower, upper⟩
    rw [MessageSort.canvas, itsRegion]
    exact cleared.marked grain.2 lower upper
  · exact (pieceIff _).mpr ⟨rfl, Nat.le_refl _, Nat.lt_add_of_pos_right cleared.nonempty⟩

theorem SameTables.piece {sort after : MessageSort} (same : SameTables sort after)
    (popped : Popped) : after.piece popped = sort.piece popped := by
  simp only [MessageSort.piece, IsGrain, same.sortedRegions, same.msgGrainPower]

theorem SameTables.aligned {sort after : MessageSort} (same : SameTables sort after)
    {popped : Popped} {r : Region} {first count : ℕ}
    (aligned : Aligned after popped r first count) :
    Aligned sort popped r first count := by
  rcases aligned with ⟨member, nonempty, inside, base, size⟩
  rw [same.sortedRegions] at member
  rw [same.msgGrainPower] at inside base size
  exact ⟨member, nonempty, inside, base, size⟩

/-- Popping ends, and cuts the marks into pieces. -/
theorem Sound.drains {sort : MessageSort} (sound : sort.Sound) :
    ∃ popped after, Drains sort popped after ∧ Cuts sort.canvas (popped.map sort.piece) ∧
      (∀ p ∈ popped, ∃ r first count, Aligned sort p r first count) ∧
      after.empty = true ∧ after.Unmarked := by
  generalize marks : {grain | sort.canvas grain ≠ 0}.ncard = left
  induction left using Nat.strong_induction_on generalizing sort with
  | _ left ih =>
      rcases sound.popWrite with
        ⟨after, pops, drained⟩ | ⟨popped, middle, r, first, count, pops, cleared⟩
      · refine ⟨[], after, Drains.done pops, Cuts.blank ?_, by simp, drained.empty,
          drained.unmarked⟩
        intro grain
        exact drained.nothing grain.1 grain.2
      · rcases cleared.canvas sound.tables with ⟨erased, single, inside⟩
        have marked : sort.canvas (r.region, first) ≠ 0 := by
          rw [single _ inside]
          exact Nat.succ_ne_zero _
        have finite : {grain | sort.canvas grain ≠ 0}.Finite :=
          finite_label fun k array found => (sound.tidy k array found).length
        have fewer := ncard_erase_lt finite inside marked
        rw [← erased, marks] at fewer
        rcases ih _ fewer cleared.sound rfl with
          ⟨rest, after, drains, cuts, aligned, empty, unmarked⟩
        have same := cleared.sameTables
        have pieces : rest.map middle.piece = rest.map sort.piece :=
          List.map_congr_left fun p _ => same.piece p
        rw [erased, pieces] at cuts
        refine ⟨popped :: rest, after, Drains.next pops drains, Cuts.piece single cuts, ?_, empty,
          unmarked⟩
        intro p member
        rcases List.mem_cons.mp member with rfl | later
        · exact ⟨r, first, count, cleared.aligned⟩
        · rcases aligned p later with ⟨other, itsFirst, itsCount, itsAligned⟩
          exact ⟨other, itsFirst, itsCount, same.aligned itsAligned⟩

/-- An address lies in a grain. -/
def InGrain (sort : MessageSort) (grain : ℕ × ℕ) (address : ℕ) : Prop :=
  ∃ r, r.region = grain.1 ∧ sort.IsGrain r grain.2 ∧
    r.base + (grain.2 <<< sort.msgGrainPower) ≤ address ∧
    address < r.base + ((grain.2 + 1) <<< sort.msgGrainPower)

theorem Tables.inGrain_unique {sort : MessageSort} (tables : sort.Tables) {first second : ℕ × ℕ}
    {address : ℕ} (inFirst : sort.InGrain first address) (inSecond : sort.InGrain second address) :
    first = second := by
  rcases inFirst with ⟨r, itsRegion, ⟨member, contained⟩, lower, upper⟩
  rcases inSecond with ⟨other, otherRegion, ⟨otherMember, otherContained⟩, otherLower, otherUpper⟩
  have above := (Nat.le_add_right _ _).trans lower
  have otherAbove := (Nat.le_add_right _ _).trans otherLower
  have same := Recorded.eq_of_touching tables.apart member otherMember (by omega) (by omega)
  subst same
  simp only [Nat.shiftLeft_eq] at lower upper otherLower otherUpper
  have below : first.2 < second.2 + 1 :=
    Nat.lt_of_mul_lt_mul_right (a := 2 ^ sort.msgGrainPower) (by omega)
  have above : second.2 < first.2 + 1 :=
    Nat.lt_of_mul_lt_mul_right (a := 2 ^ sort.msgGrainPower) (by omega)
  exact Prod.ext (itsRegion.symm.trans otherRegion) (by omega)

/-- The addresses of a popped write are those of its grains. -/
theorem Aligned.holds_iff {sort : MessageSort} (tables : sort.Tables) {popped : Popped}
    {r : Region} {first count : ℕ} (aligned : Aligned sort popped r first count) (address : ℕ) :
    popped.Holds address ↔ ∃ grain ∈ (sort.piece popped).1, sort.InGrain grain address := by
  have positive : 0 < 2 ^ sort.msgGrainPower := Nat.two_pow_pos _
  have base := aligned.base
  have size := aligned.size
  have inside := aligned.inside
  constructor
  · rintro ⟨lower, upper⟩
    -- the grain of the address by its distance from the base
    have division := Nat.div_add_mod (address - r.base) (2 ^ sort.msgGrainPower)
    have remainder := Nat.mod_lt (address - r.base) positive
    rw [Nat.mul_comm] at division
    generalize (address - r.base) / 2 ^ sort.msgGrainPower = k at division
    generalize (address - r.base) % 2 ^ sort.msgGrainPower = rest at division remainder
    have width : (k + 1) * 2 ^ sort.msgGrainPower =
        k * 2 ^ sort.msgGrainPower + 2 ^ sort.msgGrainPower := by
      rw [Nat.add_mul, Nat.one_mul]
    have total : (first + count) * 2 ^ sort.msgGrainPower =
        first * 2 ^ sort.msgGrainPower + count * 2 ^ sort.msgGrainPower := Nat.add_mul _ _ _
    have fromFirst : first < k + 1 :=
      Nat.lt_of_mul_lt_mul_right (a := 2 ^ sort.msgGrainPower) (by omega)
    have belowLast : k < first + count :=
      Nat.lt_of_mul_lt_mul_right (a := 2 ^ sort.msgGrainPower) (by omega)
    have cut := (aligned.mem_piece_iff tables (r.region, k)).mpr
      ⟨rfl, Nat.le_of_lt_succ fromFirst, belowLast⟩
    refine ⟨(r.region, k), cut, r, rfl, ⟨aligned.member, ?_⟩, ?_, ?_⟩
    · have := Nat.mul_le_mul_right (2 ^ sort.msgGrainPower) (Nat.succ_le_of_lt belowLast)
      rw [Nat.shiftLeft_eq]
      exact this.trans inside
    · show r.base + (k <<< sort.msgGrainPower) ≤ address
      rw [Nat.shiftLeft_eq]
      omega
    · show address < r.base + ((k + 1) <<< sort.msgGrainPower)
      rw [Nat.shiftLeft_eq]
      omega
  · rintro ⟨grain, cut, other, itsRegion, ⟨member, _⟩, lower, upper⟩
    rcases cut with ⟨third, thirdRegion, ⟨thirdMember, _⟩, pieceLower, pieceUpper⟩
    obtain rfl := tables.eq_of_region member thirdMember (itsRegion.trans thirdRegion.symm)
    exact ⟨pieceLower.trans lower, Nat.lt_of_lt_of_le upper pieceUpper⟩

/-- The part of a write consists of whole grains of its region. -/
theorem Sound.isGrain {sort : MessageSort} (sound : sort.Sound) {write : Write}
    (valid : sort.Valid write) {r : Region} {k : ℕ} (covers : sort.Covers write r k) :
    sort.IsGrain r k := by
  rcases valid.inside with ⟨slot, registered, inside⟩
  rcases sound.tables.covers_iff covers registered with ⟨offset, _, based, contained, coversIff⟩
  have upper := ((coversIff k).mp covers).2
  refine ⟨covers.1, ?_⟩
  rw [Nat.shiftLeft_eq]
  omega

theorem Sound.part_iff {sort : MessageSort} (sound : sort.Sound) {write : Write}
    (valid : sort.Valid write) (address : ℕ) :
    sort.Part write address ↔ ∃ grain ∈ (sort.stroke write).1, sort.InGrain grain address := by
  constructor
  · rintro ⟨r, k, covers, lower, upper⟩
    exact ⟨(r.region, k), ⟨r, rfl, covers⟩, r, rfl, sound.isGrain valid covers, lower, upper⟩
  · rintro ⟨grain, ⟨r, itsRegion, covers⟩, other, otherRegion, ⟨member, _⟩, lower, upper⟩
    obtain rfl := sound.tables.eq_of_region covers.1 member (itsRegion.trans otherRegion.symm)
    exact ⟨r, grain.2, covers, lower, upper⟩

/-- What cutting says about the writes that were pushed. -/
theorem Sound.resolved {sort : MessageSort} (sound : sort.Sound)
    (nothing : ∀ j k, sort.label j k = 0) {writes : List Write}
    (valid : ∀ write ∈ writes, sort.Valid write)
    {popped : List Popped}
    (cuts : Cuts (paintAll sort.canvas (writes.map sort.stroke)) (popped.map sort.piece))
    (aligned : ∀ p ∈ popped, ∃ r first count, Aligned sort p r first count) :
    Resolved sort writes popped := by
  have tables := sound.tables
  have holdsIff : ∀ p ∈ popped, ∀ address,
      p.Holds address ↔ ∃ grain ∈ (sort.piece p).1, sort.InGrain grain address := by
    intro p member address
    rcases aligned p member with ⟨r, first, count, itsAligned⟩
    exact itsAligned.holds_iff tables address
  have blank : ∀ grain, sort.canvas grain = 0 := fun grain => nothing grain.1 grain.2
  refine ⟨?_, ?_, ?_, ?_⟩
  · intro p member
    rcases aligned p member with ⟨r, first, count, itsAligned⟩
    rw [itsAligned.size]
    exact Nat.mul_pos itsAligned.nonempty (Nat.two_pow_pos _)
  · have apart := List.pairwise_map.mp cuts.disjoint
    apply List.Pairwise.imp_of_mem _ apart
    rintro first second firstMember secondMember disjoint address ⟨inFirst, inSecond⟩
    rcases (holdsIff first firstMember address).mp inFirst with ⟨grain, cut, itsAddress⟩
    rcases (holdsIff second secondMember address).mp inSecond with ⟨other, otherCut, otherAddress⟩
    rw [tables.inGrain_unique otherAddress itsAddress] at otherCut
    exact Set.disjoint_left.mp disjoint cut otherCut
  · intro address
    constructor
    · rintro ⟨p, member, holds⟩
      rcases (holdsIff p member address).mp holds with ⟨grain, cut, itsAddress⟩
      have marked := (cuts.mem_piece_iff grain).mp ⟨_, List.mem_map_of_mem member, cut⟩
      rw [Ne, paintAll_eq_zero_iff, not_and] at marked
      have painted := marked (blank grain)
      simp only [List.forall_mem_map, not_forall, not_not] at painted
      rcases painted with ⟨write, writeMember, covered⟩
      exact ⟨write, writeMember,
        (sound.part_iff (valid write writeMember) address).mpr ⟨grain, covered, itsAddress⟩⟩
    · rintro ⟨write, writeMember, part⟩
      rcases (sound.part_iff (valid write writeMember) address).mp part with
        ⟨grain, covered, itsAddress⟩
      have marked : paintAll sort.canvas (writes.map sort.stroke) grain ≠ 0 := by
        intro unmarked
        exact (paintAll_eq_zero_iff.mp unmarked).2 _ (List.mem_map_of_mem writeMember) covered
      rcases (cuts.mem_piece_iff grain).mpr marked with ⟨piece, pieceMember, cut⟩
      rcases List.mem_map.mp pieceMember with ⟨p, member, rfl⟩
      exact ⟨p, member, (holdsIff p member address).mpr ⟨grain, cut, itsAddress⟩⟩
  · intro r k isGrain id
    have labelled : sort.Labelled popped r k id ↔
        ∃ piece ∈ popped.map sort.piece, (r.region, k) ∈ piece.1 ∧ piece.2 = id := by
      constructor
      · rintro ⟨p, member, lower, upper, same⟩
        exact ⟨_, List.mem_map_of_mem member, ⟨r, rfl, isGrain, lower, upper⟩, same⟩
      · rintro ⟨piece, member, inside, same⟩
        rcases List.mem_map.mp member with ⟨p, pMember, rfl⟩
        rcases inside with ⟨other, itsRegion, otherGrain, lower, upper⟩
        obtain rfl := tables.eq_of_region otherGrain.1 isGrain.1 itsRegion
        exact ⟨p, pMember, lower, upper, same⟩
    have candidates : {c | sort.canvas (r.region, k) = c + 1 ∨
        ∃ stroke ∈ writes.map sort.stroke, (r.region, k) ∈ stroke.1 ∧ stroke.2 = c} =
        {c | ∃ write ∈ writes, sort.Covers write r k ∧ write.msgId = c} := by
      ext c
      constructor
      · rintro (old | ⟨stroke, member, inside, same⟩)
        · rw [blank] at old
          omega
        · rcases List.mem_map.mp member with ⟨write, writeMember, rfl⟩
          rcases inside with ⟨other, itsRegion, covers⟩
          obtain rfl := tables.eq_of_region covers.1 isGrain.1 itsRegion
          exact ⟨write, writeMember, covers, same⟩
      · rintro ⟨write, member, covers, same⟩
        exact Or.inr ⟨_, List.mem_map_of_mem member, ⟨r, rfl, covers⟩, same⟩
    rw [labelled, cuts.colour_iff, paintAll_eq_succ_iff, candidates]

/-- The popped writes resolve the conflicts between the pushed ones, whatever their order. -/
theorem resolves_conflicts {msgGrainPower : ℕ} {state : Recorded}
    (run : Recorded.Reachable msgGrainPower state)
    (nothing : ∀ j k, state.sort.label j k = 0) {writes : List Write}
    (valid : ∀ write ∈ writes, state.sort.Valid write) :
    ∃ pushed popped after, state.sort.pushWrites writes = some pushed ∧
      Drains pushed popped after ∧ Resolved state.sort writes popped ∧
      (after.empty = true ∧ ∀ j k, after.label j k = 0) ∧
      ∀ permuted : List Write, permuted.Perm writes → ∃ otherPushed otherPopped otherAfter,
        state.sort.pushWrites permuted = some otherPushed ∧
          Drains otherPushed otherPopped otherAfter ∧
          ∀ r k, state.sort.IsGrain r k → ∀ id,
            state.sort.Labelled otherPopped r k id ↔ state.sort.Labelled popped r k id := by
  have sound := run.sound.sort
  have resolve : ∀ {order : List Write}, order.Perm writes → ∃ pushed popped after,
      state.sort.pushWrites order = some pushed ∧ Drains pushed popped after ∧
        Resolved state.sort writes popped ∧ after.empty = true ∧ ∀ j k, after.label j k = 0 := by
    intro order perm
    rcases sound.pushWrites (fun write member => valid write (perm.subset member)) with
      ⟨pushed, pushes, pushedSound, same, painted⟩
    rcases pushedSound.drains with ⟨popped, after, drains, cuts, aligned, empty, unmarked⟩
    have pieces : popped.map pushed.piece = popped.map state.sort.piece :=
      List.map_congr_left fun p _ => same.piece p
    rw [painted, pieces, paintAll_perm (perm.map _)] at cuts
    refine ⟨pushed, popped, after, pushes, drains, sound.resolved nothing valid cuts ?_, empty, ?_⟩
    · intro p member
      rcases aligned p member with ⟨r, first, count, itsAligned⟩
      exact ⟨r, first, count, same.aligned itsAligned⟩
    · exact unmarked.label
  rcases resolve (List.Perm.refl writes) with
    ⟨pushed, popped, after, pushes, drains, resolved, empty, cleared⟩
  refine ⟨pushed, popped, after, pushes, drains, resolved, ⟨empty, cleared⟩, ?_⟩
  intro permuted perm
  rcases resolve perm with ⟨otherPushed, otherPopped, otherAfter, otherPushes, otherDrains,
    otherResolved, _⟩
  refine ⟨otherPushed, otherPopped, otherAfter, otherPushes, otherDrains, ?_⟩
  intro r k isGrain id
  rw [otherResolved.labels r k isGrain, resolved.labels r k isGrain]

/-- Two overlapping writes to a slot of four grains. -/
theorem resolves_conflicts_overlapping :
    ∃ (sort pushed : MessageSort) (popped : List Popped) (after : MessageSort),
      sort.Registered 0 ⟨0, 16, 32⟩ ∧
        sort.pushWrites [⟨1, 0, 3, 20⟩, ⟨0, 0, 8, 24⟩] = some pushed ∧
        Drains pushed popped after ∧ Resolved sort [⟨1, 0, 3, 20⟩, ⟨0, 0, 8, 24⟩] popped := by
  have started : Recorded.Reachable 3 (.initial 3) := Transition.Reachable.refl
  have ranged := started.call (.setSlotRange 1) (Nat.zero_le 1) rfl
  have first := ranged.call (.addRegister 0 16 32)
    ⟨by decide, by decide, by decide, Recorded.unmarked_create [] (by simp) rfl⟩ rfl
  have valid : ∀ write ∈ [(⟨1, 0, 3, 20⟩ : Write), ⟨0, 0, 8, 24⟩],
      Valid (MessageSort.mk [⟨0, 16, 32⟩] [⟨0, 16, 32⟩] [⟨0, 16, 32⟩] [⟨0, 0⟩] [.create 4]
        (.reset 0 0) 3) write := by
    intro write member
    rcases List.mem_pair.mp member with rfl | rfl
    · exact ⟨by decide, ⟨⟨0, 16, 32⟩, ⟨rfl, by decide⟩, by decide⟩, ⟨0, 16, 32⟩, 1,
        List.mem_singleton.mpr rfl, ⟨0, 16, 32⟩, 0, ⟨rfl, by decide⟩, rfl, by decide, by decide⟩
    · exact ⟨by decide, ⟨⟨0, 16, 32⟩, ⟨rfl, by decide⟩, by decide⟩, ⟨0, 16, 32⟩, 1,
        List.mem_singleton.mpr rfl, ⟨0, 16, 32⟩, 0, ⟨rfl, by decide⟩, rfl, by decide, by decide⟩
  rcases resolves_conflicts first
    (Recorded.unmarked_create [4] (by simp [sizeMax]) rfl).label valid
    with ⟨pushed, popped, after, pushes, drains, resolved, _⟩
  exact ⟨_, pushed, popped, after, ⟨rfl, by decide⟩, pushes, drains, resolved⟩

end MessageSort

end Talpf
