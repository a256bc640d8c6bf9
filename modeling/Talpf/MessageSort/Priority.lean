import Talpf.MessageSort.Conflicts

/-!
# Priorities of single bytes

`canWrite` compares a message number with the mark of the grain of an address.
Whole grains that have been written carry the largest message number plus one,
and the bytes behind the last whole grain of a region are never marked.
-/

namespace Talpf

/-- The entry behind the array has no mark. -/
theorem Writes.test_spec {writes : Writes} {start : ℕ} (inside : start ≤ writes.memory.length)
    (id : ℕ) : ∃ answer, writes.test id start = some answer ∧
      (answer = true ↔ writes.label start ≤ id) := by
  refine ⟨_, if_pos inside, ?_⟩
  rw [Bool.or_eq_true, beq_iff_eq, decide_eq_true_iff]
  constructor
  · rintro (atEnd | above)
    · rw [Writes.label_of_length_le (Nat.le_of_eq atEnd.symm)]
      exact Nat.zero_le id
    · exact above
  · exact Or.inr

namespace MessageSort

open Painting

/-- `canWrite` looks up the mark of the grain of an address. -/
theorem Sound.canWrite {sort : MessageSort} (sound : sort.Sound) {slot offset : ℕ} {entry : Slot}
    (registered : sort.Registered slot entry) (inside : offset < entry.size) (msgId : ℕ) :
    ∃ r ∈ sort.sortedRegions, r.base ≤ entry.base ∧ entry.base + entry.size ≤ r.base + r.size ∧
      ∃ answer, sort.canWrite msgId slot offset = some answer ∧
        (answer = true ↔
          sort.label r.region ((entry.base + offset - r.base) >>> sort.msgGrainPower) ≤ msgId) := by
  have tables := sound.tables
  rcases tables.refers slot entry registered with
    ⟨r, member, shift, refers, based, contained⟩
  rcases tables.arrays r member with ⟨array, found, length⟩
  have index : entry.base + offset - r.base = shift + offset := by omega
  have bounded : (shift + offset) >>> sort.msgGrainPower ≤ array.memory.length := by
    rw [length, Nat.shiftRight_eq_div_pow, Nat.shiftRight_eq_div_pow]
    exact Nat.div_le_div_right (by omega)
  rcases Writes.test_spec bounded msgId with ⟨answer, tests, answerIff⟩
  refine ⟨r, member, by omega, contained, answer, ?_, ?_⟩
  · simp only [MessageSort.canWrite, refers, found, Option.bind_some, tests]
  · rw [answerIff, index]
    simp only [label, found, Option.map_some, Option.getD_some]

/-- The grain of an address. -/
theorem mem_grain_iff {sort : MessageSort} {r : Region} {address : ℕ} (above : r.base ≤ address)
    (k : ℕ) : r.base + (k <<< sort.msgGrainPower) ≤ address ∧
      address < r.base + ((k + 1) <<< sort.msgGrainPower) ↔
        (address - r.base) >>> sort.msgGrainPower = k := by
  have positive : 0 < 2 ^ sort.msgGrainPower := Nat.two_pow_pos _
  rw [Nat.shiftLeft_eq, Nat.shiftLeft_eq, Nat.shiftRight_eq_div_pow]
  have lower := Nat.le_div_iff_mul_le positive (x := k) (y := address - r.base)
  have upper := Nat.div_lt_iff_lt_mul positive (x := address - r.base) (y := k + 1)
  omega

/-- A write covers the grain of an address in a region if the address lies in its part. -/
theorem Sound.part_iff_covers {sort : MessageSort} (sound : sort.Sound) {write : Write}
    (valid : sort.Valid write) {r : Region} (member : r ∈ sort.sortedRegions) {address : ℕ}
    (above : r.base ≤ address) (below : address < r.base + r.size) :
    sort.Part write address ↔
      (r.region, (address - r.base) >>> sort.msgGrainPower) ∈ (sort.stroke write).1 := by
  have tables := sound.tables
  constructor
  · rintro ⟨other, k, covers, lower, upper⟩
    have whole := (sound.isGrain valid covers).2
    have otherAbove := (Nat.le_add_right _ _).trans lower
    have same := Recorded.eq_of_touching tables.apart covers.1 member (by omega) (by omega)
    subst same
    rw [(mem_grain_iff above k).mp ⟨lower, upper⟩]
    exact ⟨other, rfl, covers⟩
  · rintro ⟨other, itsRegion, covers⟩
    obtain rfl := tables.eq_of_region member covers.1 itsRegion.symm
    rcases (mem_grain_iff above _).mpr rfl with ⟨lower, upper⟩
    exact ⟨r, _, covers, lower, upper⟩

/-- The bytes behind the last whole grain of a region are in no part. -/
theorem Sound.not_part_trailing {sort : MessageSort} (sound : sort.Sound) {write : Write}
    (valid : sort.Valid write) {r : Region} (member : r ∈ sort.sortedRegions) {address : ℕ}
    (behind : r.base + ((r.size >>> sort.msgGrainPower) <<< sort.msgGrainPower) ≤ address)
    (below : address < r.base + r.size) : ¬sort.Part write address := by
  rintro ⟨other, k, covers, lower, upper⟩
  have whole := (sound.isGrain valid covers).2
  have otherAbove := (Nat.le_add_right _ _).trans lower
  have above := (Nat.le_add_right _ _).trans behind
  have same := Recorded.eq_of_touching sound.tables.apart covers.1 member (by omega) (by omega)
  subst same
  have positive : 0 < 2 ^ sort.msgGrainPower := Nat.two_pow_pos _
  rw [Nat.shiftLeft_eq] at whole upper
  rw [Nat.shiftRight_eq_div_pow, Nat.shiftLeft_eq] at behind
  have count := (Nat.le_div_iff_mul_le positive).mpr whole
  have := Nat.mul_le_mul_right (2 ^ sort.msgGrainPower) count
  omega

/-- A byte can be written unless a write whose part it lies in has the same message number or a
larger one. -/
theorem canWrite_iff {msgGrainPower : ℕ} {state : Recorded}
    (run : Recorded.Reachable msgGrainPower state)
    (nothing : ∀ j k, state.sort.label j k = 0) {writes : List Write}
    (valid : ∀ write ∈ writes, state.sort.Valid write) {slot offset : ℕ} {entry : Slot}
    (live : state.live slot = some entry) (inside : offset < entry.size) (msgId : ℕ) :
    ∃ pushed answer, state.sort.pushWrites writes = some pushed ∧
      pushed.canWrite msgId slot offset = some answer ∧
      (answer = true ↔
        ∀ write ∈ writes, state.sort.Part write (entry.base + offset) → write.msgId < msgId) ∧
      ∀ r ∈ state.sort.sortedRegions,
        r.base + ((r.size >>> state.sort.msgGrainPower) <<< state.sort.msgGrainPower) ≤
          entry.base + offset → entry.base + offset < r.base + r.size → answer = true := by
  have sound := run.sound.sort
  have registered := (run.sound.registered slot entry).mp live
  rcases sound.pushWrites valid with ⟨pushed, pushes, pushedSound, same, painted⟩
  rcases pushedSound.canWrite ((same.registered_iff slot entry).mpr registered) inside msgId with
    ⟨r, member, above, contained, answer, answers, answerIff⟩
  rw [same.sortedRegions] at member
  rw [same.msgGrainPower] at answerIff
  have painting : pushed.label r.region
      ((entry.base + offset - r.base) >>> state.sort.msgGrainPower) =
        paintAll state.sort.canvas (writes.map state.sort.stroke)
          (r.region, (entry.base + offset - r.base) >>> state.sort.msgGrainPower) := by
    rw [← painted]
    rfl
  have decides : answer = true ↔
      ∀ write ∈ writes, state.sort.Part write (entry.base + offset) → write.msgId < msgId := by
    rw [answerIff, painting, paintAll_le_iff, List.forall_mem_map]
    have blank : state.sort.canvas
        (r.region, (entry.base + offset - r.base) >>> state.sort.msgGrainPower) ≤ msgId := by
      rw [canvas, nothing]
      exact Nat.zero_le msgId
    constructor
    · rintro ⟨_, smaller⟩ write writeMember part
      exact smaller write writeMember
        ((sound.part_iff_covers (valid write writeMember) member (by omega) (by omega)).mp part)
    · intro smaller
      refine ⟨blank, ?_⟩
      intro write writeMember covered
      exact smaller write writeMember
        ((sound.part_iff_covers (valid write writeMember) member (by omega) (by omega)).mpr covered)
  refine ⟨pushed, answer, pushes, answers, decides, ?_⟩
  intro last lastMember behind below
  apply decides.mpr
  intro write writeMember part
  exact absurd part (sound.not_part_trailing (valid write writeMember) lastMember behind below)

/-- A slot of four grains and two more bytes, with two overlapping writes. -/
theorem canWrite_iff_overlapping :
    ∃ (sort pushed : MessageSort) (within beyond : Bool), sort.Registered 0 ⟨0, 16, 34⟩ ∧
      sort.pushWrites [⟨1, 0, 3, 20⟩, ⟨0, 0, 8, 24⟩] = some pushed ∧
      pushed.canWrite 2 0 9 = some within ∧ pushed.canWrite 0 0 33 = some beyond ∧
      (within = true ↔ ∀ write ∈ [(⟨1, 0, 3, 20⟩ : Write), ⟨0, 0, 8, 24⟩],
        sort.Part write (16 + 9) → write.msgId < 2) ∧ beyond = true := by
  have started : Recorded.Reachable 3 (.initial 3) := Transition.Reachable.refl
  have ranged := started.call (.setSlotRange 1) (Nat.zero_le 1) rfl
  have first := ranged.call (.addRegister 0 16 34)
    ⟨by decide, by decide, by decide, Recorded.unmarked_create [] (by simp) rfl⟩ rfl
  have valid : ∀ write ∈ [(⟨1, 0, 3, 20⟩ : Write), ⟨0, 0, 8, 24⟩],
      Valid (MessageSort.mk [⟨0, 16, 34⟩] [⟨0, 16, 34⟩] [⟨0, 16, 34⟩] [⟨0, 0⟩] [.create 4]
        (.reset 0 0) 3) write := by
    intro write member
    rcases List.mem_pair.mp member with rfl | rfl
    · exact ⟨by decide, ⟨⟨0, 16, 34⟩, ⟨rfl, by decide⟩, by decide⟩, ⟨0, 16, 34⟩, 1,
        List.mem_singleton.mpr rfl, ⟨0, 16, 34⟩, 0, ⟨rfl, by decide⟩, rfl, by decide, by decide⟩
    · exact ⟨by decide, ⟨⟨0, 16, 34⟩, ⟨rfl, by decide⟩, by decide⟩, ⟨0, 16, 34⟩, 1,
        List.mem_singleton.mpr rfl, ⟨0, 16, 34⟩, 0, ⟨rfl, by decide⟩, rfl, by decide, by decide⟩
  have unmarked := (@Recorded.unmarked_create ⟨[⟨0, 16, 34⟩], [⟨0, 16, 34⟩], [⟨0, 16, 34⟩],
    [⟨0, 0⟩], [.create 4], .reset 0 0, 3⟩ [4] (by simp [sizeMax]) rfl).label
  rcases @canWrite_iff _ _ first unmarked _ valid 0 9 ⟨0, 16, 34⟩ rfl (by decide) 2 with
    ⟨pushed, within, pushes, answers, decides, _⟩
  rcases @canWrite_iff _ _ first unmarked _ valid 0 33 ⟨0, 16, 34⟩ rfl (by decide) 0 with
    ⟨other, beyond, otherPushes, otherAnswers, _, trailing⟩
  rw [pushes, Option.some.injEq] at otherPushes
  subst otherPushes
  exact ⟨_, pushed, within, beyond, ⟨rfl, by decide⟩, pushes, answers, otherAnswers, decides,
    trailing ⟨0, 16, 34⟩ (List.mem_singleton.mpr rfl) (by decide) (by decide)⟩

end MessageSort

end Talpf
