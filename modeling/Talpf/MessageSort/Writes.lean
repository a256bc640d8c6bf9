import Talpf.MessageSort

/-!
# The marks of one region

Pushing raises the marks of the pushed grains, as a pointwise maximum.  Popping
returns a run of equal marks and clears it.  The window between `min` and `max`
always begins with a mark and contains all marks, so that nothing is left once
popping ends.
-/

namespace Talpf

namespace Writes

/-- The mark of a grain. -/
def label (writes : Writes) (i : ℕ) : ℕ := writes.memory.getD i 0

/-- There are no marks. -/
structure Idle (writes : Writes) : Prop where
  min : writes.min = sizeMax
  max : writes.max = 0
  unmarked : ∀ i, writes.label i = 0

/-- The window begins with a mark and contains all marks. -/
structure Active (writes : Writes) : Prop where
  ordered : writes.min ≤ writes.max
  bounded : writes.max < writes.memory.length
  marked : writes.label writes.min ≠ 0
  window : ∀ i, writes.label i ≠ 0 → writes.min ≤ i ∧ i ≤ writes.max

/-- The window contains all marks, but need not begin with one. -/
structure Spanning (writes : Writes) : Prop where
  ordered : writes.min ≤ writes.max
  bounded : writes.max < writes.memory.length
  window : ∀ i, writes.label i ≠ 0 → writes.min ≤ i ∧ i ≤ writes.max

theorem Active.spanning {writes : Writes} (active : writes.Active) : writes.Spanning :=
  ⟨active.ordered, active.bounded, active.window⟩

/-- What holds between two calls for all message numbers: the mark of `2 ^ 32 - 1` is zero. -/
structure Enclosed (writes : Writes) : Prop where
  length : writes.memory.length ≤ sizeMax
  window : writes.Idle ∨ writes.Spanning

/-- What holds between two calls.  Marks of message numbers below `2 ^ 31` do not wrap. -/
structure Tidy (writes : Writes) : Prop where
  length : writes.memory.length ≤ sizeMax
  labels : ∀ i, writes.label i ≤ 2 ^ 31
  window : writes.Idle ∨ writes.Active

theorem Tidy.enclosed {writes : Writes} (tidy : writes.Tidy) : writes.Enclosed :=
  ⟨tidy.length, tidy.window.imp_right Active.spanning⟩

theorem label_of_length_le {writes : Writes} {i : ℕ} (beyond : writes.memory.length ≤ i) :
    writes.label i = 0 :=
  List.getD_eq_default _ _ beyond

theorem idle_create (size : ℕ) : (create size).Idle where
  min := rfl
  max := rfl
  unmarked i := by
    simp only [label, create, List.getD_eq_getElem?_getD, List.getElem?_replicate]
    split <;> rfl

theorem tidy_create {size : ℕ} (bounded : size ≤ sizeMax) : (create size).Tidy where
  length := by simpa [create] using bounded
  labels i := by simp [(idle_create size).unmarked]
  window := Or.inl (idle_create size)

theorem getD_resizeVector (memory : List ℕ) {newSize : ℕ} (grows : memory.length ≤ newSize)
    (i : ℕ) : (resizeVector 0 newSize memory).getD i 0 = memory.getD i 0 := by
  rw [resizeVector, List.take_of_length_le grows]
  by_cases inside : i < memory.length
  · rw [List.getD_append _ _ _ _ inside]
  · rw [List.getD_append_right _ _ _ _ (by omega), List.getD_eq_default memory _ (by omega),
      List.getD_eq_getElem?_getD, List.getElem?_replicate]
    split <;> rfl

/-- An array without marks grows. -/
theorem Idle.resize {writes : Writes} (idle : writes.Idle) {newSize : ℕ}
    (grows : writes.memory.length ≤ newSize) :
    ∃ after, writes.resize newSize = some after ∧ after.Idle ∧ after.memory.length = newSize := by
  refine ⟨_, if_pos grows, ⟨idle.min, idle.max, ?_⟩, ?_⟩
  · intro i
    simp only [label, getD_resizeVector _ grows]
    exact idle.unmarked i
  · simp only [resizeVector, List.length_append, List.length_take, List.length_replicate]
    omega

@[simp]
theorem length_mark (id start size : ℕ) (memory : List ℕ) :
    (mark id start size memory).length = memory.length := by
  induction size generalizing start memory with
  | zero => rfl
  | succ size ih => simp [mark, ih]

/-- Marking takes the larger mark on the marked entries. -/
theorem getD_mark {id : ℕ} (small : id < 2 ^ 31) (start size : ℕ) (memory : List ℕ)
    (fits : start + size ≤ memory.length) (i : ℕ) :
    (mark id start size memory).getD i 0 =
      if start ≤ i ∧ i < start + size then Max.max (memory.getD i 0) (id + 1)
      else memory.getD i 0 := by
  induction size generalizing start memory with
  | zero =>
      rw [if_neg (by omega)]
      rfl
  | succ size ih =>
      have modified : ∀ j, (memory.modify start fun stored =>
          if id ≥ stored then (id + 1) % 2 ^ 32 else stored).getD j 0 =
            if j = start then Max.max (memory.getD j 0) (id + 1) else memory.getD j 0 := by
        intro j
        simp only [List.getD_eq_getElem?_getD, List.getElem?_modify]
        by_cases here : start = j
        · subst here
          have bound : start < memory.length := by omega
          simp only [if_true, List.getElem?_eq_getElem bound, Option.map_eq_map, Option.map_some,
            Option.getD_some]
          split <;> omega
        · simp [here, Ne.symm here]
      rw [mark, ih (start + 1) _ (by rw [List.length_modify]; omega), modified]
      by_cases first : i = start
      · subst first
        rw [if_neg (by omega), if_pos rfl, if_pos (by omega)]
      · rw [if_neg first]
        by_cases inside : start + 1 ≤ i ∧ i < start + 1 + size
        · rw [if_pos inside, if_pos (by omega)]
        · rw [if_neg inside, if_neg (by omega)]

/-- Marking changes nothing outside of the marked entries. -/
theorem getD_mark_of_outside (id start size : ℕ) (memory : List ℕ) {i : ℕ}
    (outside : ¬(start ≤ i ∧ i < start + size)) :
    (mark id start size memory).getD i 0 = memory.getD i 0 := by
  induction size generalizing start memory with
  | zero => rfl
  | succ size ih =>
      have differs : start ≠ i := by omega
      rw [mark, ih (start + 1) _ (by omega)]
      simp only [List.getD_eq_getElem?_getD, List.getElem?_modify, differs, if_false, id_map']

/-- Pushing at least one grain extends the window. -/
theorem Enclosed.push {writes : Writes} (enclosed : writes.Enclosed) {start size : ℕ}
    (nonempty : 0 < size) (fits : start + size ≤ writes.memory.length) (id : ℕ) :
    ∃ after, writes.push id start size = some after ∧ after.Spanning ∧
      after.min = Nat.min writes.min start ∧ after.memory = mark id start size writes.memory := by
  have lengths := enclosed.length
  have last : subSize (start + size) 1 = start + size - 1 := by
    simp only [subSize, sizeMax] at lengths ⊢
    omega
  refine ⟨_, if_pos fits, ?_, rfl, rfl⟩
  rw [last]
  have minRight : Nat.min writes.min start ≤ start := Nat.min_le_right _ _
  have maxRight : start + size - 1 ≤ Nat.max writes.max (start + size - 1) := Nat.le_max_right _ _
  refine ⟨?_, ?_, ?_⟩ <;> simp only [label, length_mark]
  · omega
  · rcases enclosed.window with idle | spanning
    · rw [idle.max]
      exact Nat.max_lt.mpr ⟨by omega, by omega⟩
    · exact Nat.max_lt.mpr ⟨spanning.bounded, by omega⟩
  · intro i marked
    by_cases inside : start ≤ i ∧ i < start + size
    · omega
    · rw [getD_mark_of_outside id start size writes.memory inside, ← label] at marked
      rcases enclosed.window with idle | spanning
      · exact absurd (idle.unmarked i) marked
      · have minLeft : Nat.min writes.min start ≤ writes.min := Nat.min_le_left _ _
        have maxLeft : writes.max ≤ Nat.max writes.max (start + size - 1) := Nat.le_max_left _ _
        have := spanning.window i marked
        omega

/-- Pushing at least one grain. -/
theorem Tidy.push {writes : Writes} (tidy : writes.Tidy) {id start size : ℕ}
    (small : id < 2 ^ 31) (nonempty : 0 < size)
    (fits : start + size ≤ writes.memory.length) :
    ∃ after, writes.push id start size = some after ∧ after.Tidy ∧
      after.memory.length = writes.memory.length ∧
      ∀ i, after.label i = if start ≤ i ∧ i < start + size then Max.max (writes.label i) (id + 1)
        else writes.label i := by
  have marks := getD_mark small start size writes.memory fits
  rcases tidy.enclosed.push nonempty fits id with ⟨after, pushes, spanning, atMin, memory⟩
  have labels : ∀ i, after.label i =
      if start ≤ i ∧ i < start + size then Max.max (writes.label i) (id + 1)
      else writes.label i := by
    intro i
    rw [label, memory, marks]
    rfl
  have length : after.memory.length = writes.memory.length := by rw [memory, length_mark]
  refine ⟨after, pushes, ⟨?_, ?_, Or.inr ⟨spanning.ordered, spanning.bounded, ?_, spanning.window⟩⟩,
    length, labels⟩
  · rw [length]
    exact tidy.length
  · intro i
    have old := tidy.labels i
    rw [labels]
    split
    next => omega
    next => exact old
  · -- the window begins at the pushed grains or where it began before
    rw [labels, atMin]
    by_cases earlier : writes.min < start
    · have same : Nat.min writes.min start = writes.min := Nat.min_eq_left (Nat.le_of_lt earlier)
      rcases tidy.window with idle | active
      · have lengths := tidy.length
        rw [idle.min] at earlier
        omega
      · rw [same, if_neg (by omega)]
        exact active.marked
    · have same : Nat.min writes.min start = start := Nat.min_eq_right (Nat.le_of_not_lt earlier)
      rw [same, if_pos (by omega)]
      omega

theorem getD_set (memory : List ℕ) {i : ℕ} (bound : i < memory.length) (value j : ℕ) :
    (memory.set i value).getD j 0 = if j = i then value else memory.getD j 0 := by
  simp only [List.getD_eq_getElem?_getD, List.getElem?_set]
  by_cases here : i = j
  · subst here
    simp [bound]
  · simp [here, Ne.symm here]

/-- The loop of `pop` clears a run of equal marks. -/
theorem clearRun_spec (id left i : ℕ) (memory : List ℕ) (bound : i + left < memory.length) :
    i < (clearRun id left i memory).1 ∧ (clearRun id left i memory).1 ≤ i + left + 1 ∧
      (clearRun id left i memory).2.length = memory.length ∧
      (∀ j, i < j → j < (clearRun id left i memory).1 →
        memory.getD j 0 = (id + 1) % 2 ^ 32) ∧
      ∀ j, (clearRun id left i memory).2.getD j 0 =
        if i ≤ j ∧ j < (clearRun id left i memory).1 then 0 else memory.getD j 0 := by
  have single : ∀ j, (memory.set i 0).getD j 0 =
      if i ≤ j ∧ j < i + 1 then 0 else memory.getD j 0 := by
    intro j
    rw [getD_set memory (by omega)]
    by_cases here : j = i
    · rw [if_pos here, if_pos (by omega)]
    · rw [if_neg here, if_neg (by omega)]
  induction left generalizing i memory with
  | zero =>
      refine ⟨Nat.lt_succ_self i, Nat.le_refl _, List.length_set, ?_, single⟩
      intro j after before
      simp only [clearRun] at before
      omega
  | succ left ih =>
      simp only [clearRun]
      split
      next equal =>
        have rest := ih (i + 1) (memory.set i 0) (by rw [List.length_set]; omega) (by
          intro j
          rw [getD_set _ (by rw [List.length_set]; omega)]
          by_cases here : j = i + 1
          · rw [if_pos here, if_pos (by omega)]
          · rw [if_neg here, if_neg (by omega)])
        rcases rest with ⟨lower, upper, length, equals, cleared⟩
        refine ⟨by omega, by omega, by rw [length, List.length_set], ?_, ?_⟩
        · intro j after before
          rw [single, if_neg (by omega)] at equal
          by_cases next : j = i + 1
          · rw [next]
            exact equal
          · have later := equals j (by omega) before
            rw [single, if_neg (by omega)] at later
            exact later
        · intro j
          rw [cleared, single]
          by_cases inside : i + 1 ≤ j ∧ j < (clearRun id left (i + 1) (memory.set i 0)).1
          · rw [if_pos inside, if_pos (by omega)]
          · rw [if_neg inside]
            by_cases first : i ≤ j ∧ j < i + 1
            · rw [if_pos first, if_pos (by omega)]
            · rw [if_neg first, if_neg (by omega)]
      next =>
        refine ⟨Nat.lt_succ_self i, by omega, List.length_set, ?_, single⟩
        intro j after before
        omega

theorem skipGap_spec (left i : ℕ) (memory : List ℕ) :
    i ≤ skipGap left i memory ∧ skipGap left i memory ≤ i + left ∧
      (∀ j, i ≤ j → j < skipGap left i memory → memory.getD j 0 = 0) ∧
      (skipGap left i memory < i + left → memory.getD (skipGap left i memory) 0 ≠ 0) := by
  induction left generalizing i with
  | zero =>
      refine ⟨Nat.le_refl i, Nat.le_refl i, ?_, ?_⟩
      · intro j lower upper
        simp only [skipGap] at upper
        omega
      · intro inside
        simp only [skipGap] at inside
        omega
  | succ left ih =>
      simp only [skipGap]
      split
      next unmarked =>
        rcases ih (i + 1) with ⟨lower, upper, skipped, stops⟩
        refine ⟨by omega, by omega, ?_, fun inside => stops (by omega)⟩
        intro j after before
        by_cases here : j = i
        · rw [here]
          exact unmarked
        · exact skipped j (by omega) before
      next marked =>
        refine ⟨Nat.le_refl i, by omega, ?_, fun _ => marked⟩
        intro j lower upper
        omega

/-- Without marks nothing is popped. -/
theorem Idle.pop {writes : Writes} (idle : writes.Idle) : writes.pop = some (none, writes) := by
  have empty : writes.max < writes.min := by
    rw [idle.min, idle.max]
    decide
  rw [Writes.pop, if_pos empty]

/-- What `pop` does to a window with entries, in the terms of its two loops. -/
theorem pop_eq {writes : Writes} (ordered : writes.min ≤ writes.max)
    (bounded : writes.max < writes.memory.length) {id i min : ℕ} {memory : List ℕ}
    (itsId : (writes.label writes.min + 2 ^ 32 - 1) % 2 ^ 32 = id)
    (run : clearRun id (writes.max - writes.min) writes.min writes.memory = (i, memory))
    (gap : skipGap (writes.max + 1 - i) i memory = min) :
    writes.pop = if min > writes.max then
        if writes.max = min - 1 then
          some (some (id, writes.min, i - writes.min), ⟨sizeMax, 0, memory⟩)
        else none
      else some (some (id, writes.min, i - writes.min), ⟨min, writes.max, memory⟩) := by
  rw [label] at itsId
  simp only [Writes.pop, if_neg (Nat.not_lt.mpr ordered), if_pos bounded, itsId, run, gap]

/-- What `pop` takes away from the window: its first entry and those after it with the same mark. -/
structure Takes (writes : Writes) (id size : ℕ) (after : Writes) : Prop where
  pop : writes.pop = some (some (id, writes.min, size), after)
  nonempty : 0 < size
  inside : writes.min + size ≤ writes.max + 1
  length : after.memory.length = writes.memory.length
  equals : ∀ i, writes.min < i → i < writes.min + size → writes.label i = (id + 1) % 2 ^ 32
  label : ∀ i, after.label i =
    if writes.min ≤ i ∧ i < writes.min + size then 0 else writes.label i
  window : after.Idle ∨ after.Active

/-- Afterwards the window begins with a mark. -/
theorem Spanning.pop {writes : Writes} (spanning : writes.Spanning) :
    ∃ size after, Takes writes ((writes.label writes.min + 2 ^ 32 - 1) % 2 ^ 32) size after := by
  have ordered := spanning.ordered
  have bounded := spanning.bounded
  generalize itsId : (writes.label writes.min + 2 ^ 32 - 1) % 2 ^ 32 = id
  rcases clearRun_spec id (writes.max - writes.min) writes.min writes.memory (by omega) with
    ⟨lower, upper, length, equals, cleared⟩
  generalize run : clearRun id (writes.max - writes.min) writes.min writes.memory = result
    at lower upper length equals cleared
  rcases result with ⟨i, memory⟩
  rcases skipGap_spec (writes.max + 1 - i) i memory with ⟨gapLower, gapUpper, skipped, stops⟩
  simp only at lower upper length equals cleared
  generalize gap : skipGap (writes.max + 1 - i) i memory = min at gapLower gapUpper skipped stops
  have size : writes.min + (i - writes.min) = i := by omega
  have labelAfter : ∀ (newMin newMax j : ℕ), (Writes.mk newMin newMax memory).label j =
      if writes.min ≤ j ∧ j < writes.min + (i - writes.min) then 0 else writes.label j := by
    intro newMin newMax j
    rw [size]
    exact cleared j
  have equalsAfter : ∀ j, writes.min < j → j < writes.min + (i - writes.min) →
      writes.label j = (id + 1) % 2 ^ 32 := by
    intro j after before
    exact equals j after (by omega)
  -- no mark is left outside of the new window
  have outside : ∀ (newMin newMax j : ℕ), (Writes.mk newMin newMax memory).label j ≠ 0 →
      min ≤ j ∧ j ≤ writes.max := by
    intro newMin newMax j isMarked
    have unskipped : ¬(i ≤ j ∧ j < min) := fun between => isMarked (skipped j between.1 between.2)
    rw [labelAfter] at isMarked
    split at isMarked
    next => exact absurd rfl isMarked
    next outsideRun =>
      have := spanning.window j isMarked
      omega
  have pops := pop_eq ordered bounded itsId run gap
  by_cases drained : min > writes.max
  · rw [if_pos drained, if_pos (by omega)] at pops
    refine ⟨_, _, pops, by omega, by omega, length, equalsAfter, labelAfter _ _,
      Or.inl ⟨rfl, rfl, ?_⟩⟩
    intro j
    by_contra isMarked
    have := outside _ _ j isMarked
    omega
  · rw [if_neg drained] at pops
    exact ⟨_, _, pops, by omega, by omega, length, equalsAfter, labelAfter _ _,
      Or.inr ⟨Nat.not_lt.mp drained, by rw [length]; exact bounded, stops (by omega),
        outside _ _⟩⟩

/-- Nothing is marked that was not marked before. -/
theorem Enclosed.pop {writes : Writes} (enclosed : writes.Enclosed) :
    ∃ popped after, writes.pop = some (popped, after) ∧ after.Enclosed ∧
      after.memory.length = writes.memory.length ∧
      ∀ i, after.label i ≠ 0 → writes.label i ≠ 0 := by
  rcases enclosed.window with idle | spanning
  · exact ⟨none, writes, idle.pop, enclosed, rfl, fun i => id⟩
  · rcases spanning.pop with ⟨size, after, takes⟩
    refine ⟨_, after, takes.pop, ⟨?_, takes.window.imp_right Active.spanning⟩, takes.length, ?_⟩
    · rw [takes.length]
      exact enclosed.length
    · intro i marked
      rw [takes.label] at marked
      split at marked
      next => exact absurd rfl marked
      next => exact marked

/-- What `pop` takes away: a run of grains with the same mark. -/
structure Pops (writes : Writes) (id start size : ℕ) (after : Writes) : Prop where
  pop : writes.pop = some (some (id, start, size), after)
  tidy : after.Tidy
  length : after.memory.length = writes.memory.length
  nonempty : 0 < size
  inside : start + size ≤ writes.memory.length
  marked : ∀ i, start ≤ i → i < start + size → writes.label i = id + 1
  label : ∀ i, after.label i = if start ≤ i ∧ i < start + size then 0 else writes.label i

theorem Tidy.pop {writes : Writes} (tidy : writes.Tidy) (active : writes.Active) :
    ∃ id start size after, Pops writes id start size after := by
  have bounded := active.bounded
  have first := active.marked
  have firstLe := tidy.labels writes.min
  rcases active.spanning.pop with ⟨size, after, takes⟩
  have inside := takes.inside
  have itsId : (writes.label writes.min + 2 ^ 32 - 1) % 2 ^ 32 + 1 = writes.label writes.min := by
    omega
  refine ⟨_, _, size, after, takes.pop, ⟨?_, ?_, takes.window⟩, takes.length, takes.nonempty,
    by omega, ?_, takes.label⟩
  · rw [takes.length]
    exact tidy.length
  · intro i
    rw [takes.label]
    split
    next => exact Nat.zero_le _
    next => exact tidy.labels i
  · intro i lower upper
    by_cases atFirst : i = writes.min
    · rw [atFirst, itsId]
    · have equal := takes.equals i (by omega) upper
      rw [itsId] at equal ⊢
      omega

end Writes

end Talpf
