import Talpf.MessageSort.Queries
import Mathlib.Order.CompletePartialOrder

/-!
# Windows that are too wide

A window may end beyond its last mark: it is popped as if it ended there, as
long as no mark is taken back.  A window that begins before its first mark is
noticed once the marks of the other regions have been popped.
-/

namespace Talpf

namespace Writes

/-- The same array with a window that ends later. -/
structure Wider (first second : Writes) : Prop where
  spanning : first.Spanning
  marked : ∃ i, first.label i ≠ 0
  length : first.memory.length ≤ sizeMax
  labels : ∀ i, first.label i < 2 ^ 32
  later : ∃ max, first.max ≤ max ∧ max < first.memory.length ∧
    second = ⟨first.min, max, first.memory⟩

theorem getD_set_later (memory : List ℕ) {i j : ℕ} (later : i < j) :
    (memory.set i 0).getD j 0 = memory.getD j 0 := by
  simp only [List.getD_eq_getElem?_getD, List.getElem?_set_ne (Nat.ne_of_lt later)]

/-- A run that ends within `left` entries does not depend on how many entries follow. -/
theorem clearRun_add {id left i : ℕ} {memory : List ℕ} (stop : ℕ) (after : i < stop)
    (within : stop ≤ i + left + 1) (ends : memory.getD stop 0 ≠ (id + 1) % 2 ^ 32) (extra : ℕ) :
    clearRun id (left + extra) i memory = clearRun id left i memory := by
  induction left generalizing i memory with
  | zero =>
      have next : stop = i + 1 := by omega
      subst next
      cases extra with
      | zero => rfl
      | succ extra =>
          rw [← getD_set_later memory after] at ends
          simp only [clearRun, if_neg ends]
  | succ left ih =>
      rw [Nat.succ_add]
      simp only [clearRun]
      split
      next equal =>
        have beyond : i + 1 < stop := by
          by_contra notBeyond
          have next : stop = i.succ := by omega
          rw [next, ← getD_set_later memory (Nat.lt_succ_self i)] at ends
          exact ends equal
        apply ih beyond (by omega)
        rw [getD_set_later memory after]
        exact ends
      next => rfl

/-- A gap that ends within `left` entries does not depend on how many entries follow. -/
theorem skipGap_add {left i stop : ℕ} {memory : List ℕ} (lower : i ≤ stop)
    (upper : stop < i + left) (ends : memory.getD stop 0 ≠ 0) (extra : ℕ) :
    skipGap (left + extra) i memory = skipGap left i memory := by
  induction left generalizing i with
  | zero => omega
  | succ left ih =>
      rw [Nat.succ_add]
      simp only [skipGap]
      split
      next unmarked =>
        have differs : i ≠ stop := by
          intro same
          rw [same] at unmarked
          exact ends unmarked
        exact ih (by omega) (by omega)
      next => rfl

/-- A gap without an end is skipped. -/
theorem skipGap_of_unmarked {left i : ℕ} {memory : List ℕ}
    (unmarked : ∀ j, i ≤ j → memory.getD j 0 = 0) : skipGap left i memory = i + left := by
  induction left generalizing i with
  | zero => rfl
  | succ left ih =>
      rw [skipGap, if_pos (unmarked i (Nat.le_refl i)), ih (fun j later => unmarked j (by omega))]
      omega

/-- A push keeps the relation, or it widens both windows alike. -/
theorem Wider.push {first second : Writes} (wider : Wider first second) {id : ℕ}
    (small : id < 2 ^ 31) (start size : ℕ) :
    first.push id start size = none ∧ second.push id start size = none ∨
      ∃ firstAfter secondAfter, first.push id start size = some firstAfter ∧
        second.push id start size = some secondAfter ∧
        (firstAfter = secondAfter ∨ Wider firstAfter secondAfter) := by
  rcases wider with ⟨spanning, ⟨i, marked⟩, length, labels, max, le, bounded, rfl⟩
  simp only [Writes.push]
  by_cases fits : start + size ≤ first.memory.length
  · rw [if_pos fits, if_pos fits]
    refine Or.inr ⟨_, _, rfl, rfl, ?_⟩
    have ordered := spanning.ordered
    by_cases nothing : start + size = 0
    · -- the last index underflows, in both
      have last : subSize (start + size) 1 = sizeMax := by
        rw [nothing]
        rfl
      have firstMax : Nat.max first.max sizeMax = sizeMax := Nat.max_eq_right (by omega)
      have secondMax : Nat.max max sizeMax = sizeMax := Nat.max_eq_right (by omega)
      left
      rw [last, firstMax, secondMax]
    · have last : subSize (start + size) 1 = start + size - 1 := by
        simp only [subSize, sizeMax] at length ⊢
        omega
      right
      rw [last]
      have marks := getD_mark small start size first.memory fits
      have minLeft : Nat.min first.min start ≤ first.min := Nat.min_le_left _ _
      have minRight : Nat.min first.min start ≤ start := Nat.min_le_right _ _
      have maxLeft : first.max ≤ Nat.max first.max (start + size - 1) := Nat.le_max_left _ _
      have maxRight : start + size - 1 ≤ Nat.max first.max (start + size - 1) :=
        Nat.le_max_right _ _
      refine ⟨⟨?_, ?_, ?_⟩, ⟨i, ?_⟩, ?_, ?_, Nat.max max (start + size - 1), ?_, ?_, rfl⟩ <;>
        simp only [label, length_mark]
      · omega
      · exact Nat.max_lt.mpr ⟨by omega, by omega⟩
      · intro j isMarked
        rw [marks] at isMarked
        split at isMarked
        next inside => omega
        next =>
          have := spanning.window j isMarked
          omega
      · rw [marks]
        rw [label] at marked
        split <;> omega
      · exact length
      · intro j
        have old := labels j
        rw [label] at old
        rw [marks]
        split <;> omega
      · exact Nat.max_le.mpr ⟨Nat.le_trans le (Nat.le_max_left _ _), Nat.le_max_right _ _⟩
      · exact Nat.max_lt.mpr ⟨bounded, by omega⟩
  · rw [if_neg fits, if_neg fits]
    exact Or.inl ⟨rfl, rfl⟩

/-- Where the run that is popped ends does not depend on where the window ends. -/
theorem Wider.clearRun {first second : Writes} (wider : Wider first second) {id : ℕ}
    (itsId : (first.label first.min + 2 ^ 32 - 1) % 2 ^ 32 = id) :
    Writes.clearRun id (second.max - first.min) first.min first.memory =
      Writes.clearRun id (first.max - first.min) first.min first.memory := by
  rcases wider with ⟨spanning, ⟨i, marked⟩, length, labels, max, le, bounded, rfl⟩
  have ordered := spanning.ordered
  have itsLabel := labels first.min
  have itself : (id + 1) % 2 ^ 32 = first.label first.min := by omega
  have extra : max - first.min = first.max - first.min + (max - first.max) := by omega
  rw [extra]
  by_cases unmarked : first.label first.min = 0
  · -- a run of entries without a mark ends at the first mark
    have inside := spanning.window i marked
    have differs : i ≠ first.min := by
      rintro rfl
      exact marked unmarked
    apply clearRun_add i (by omega) (by omega)
    rw [itself, unmarked]
    exact marked
  · -- a run of marks ends with the window
    apply clearRun_add (first.max + 1) (by omega) (by omega)
    have nothing : first.label (first.max + 1) = 0 := by
      by_contra beyond
      have := spanning.window _ beyond
      omega
    rw [itself, ← label, nothing]
    exact Ne.symm unmarked

/-- The same run is popped, and the windows are reset together. -/
theorem Wider.pop {first second : Writes} (wider : Wider first second) :
    ∃ popped firstAfter secondAfter, first.pop = some (some popped, firstAfter) ∧
      second.pop = some (some popped, secondAfter) ∧
      (firstAfter = secondAfter ∨ Wider firstAfter secondAfter) := by
  generalize itsId : (first.label first.min + 2 ^ 32 - 1) % 2 ^ 32 = id
  have sameRun := wider.clearRun itsId
  rcases wider with ⟨spanning, _, length, labels, max, le, bounded, rfl⟩
  have ordered := spanning.ordered
  have firstBounded := spanning.bounded
  rcases clearRun_spec id (first.max - first.min) first.min first.memory (by omega) with
    ⟨lower, upper, runLength, _, cleared⟩
  generalize run : Writes.clearRun id (first.max - first.min) first.min first.memory = result
    at sameRun lower upper runLength cleared
  rcases result with ⟨i, memory⟩
  simp only at lower upper runLength cleared sameRun
  have pops := pop_eq ordered firstBounded itsId run rfl
  have popsToo := @pop_eq ⟨first.min, max, first.memory⟩ (Nat.le_trans ordered le) bounded id i _
    memory itsId sameRun rfl
  have extra : max + 1 - i = first.max + 1 - i + (max - first.max) := by omega
  simp only [extra] at popsToo
  have remaining : ∀ j, memory.getD j 0 ≠ 0 → i ≤ j ∧ j ≤ first.max := by
    intro j marked
    rw [cleared] at marked
    split at marked
    next => exact absurd rfl marked
    next outside =>
      have inside := spanning.window j marked
      omega
  by_cases left : ∃ j, memory.getD j 0 ≠ 0
  · rcases left with ⟨j, marked⟩
    rcases remaining j marked with ⟨above, below⟩
    rw [skipGap_add above (by omega) marked] at popsToo
    rcases skipGap_spec (first.max + 1 - i) i memory with ⟨gapLower, _, skipped, _⟩
    generalize skipGap (first.max + 1 - i) i memory = min at pops popsToo gapLower skipped
    have atMost : min ≤ j := by
      by_contra beyond
      exact marked (skipped j above (by omega))
    rw [if_neg (by omega)] at pops popsToo
    refine ⟨_, _, _, pops, popsToo, Or.inr ⟨⟨?_, ?_, ?_⟩, ⟨j, marked⟩, ?_, ?_, max, le, ?_, rfl⟩⟩
    · exact Nat.le_trans atMost below
    · rw [runLength]
      exact firstBounded
    · intro k isMarked
      rcases remaining k isMarked with ⟨kAbove, kBelow⟩
      refine ⟨?_, kBelow⟩
      by_contra before
      exact isMarked (skipped k kAbove (Nat.lt_of_not_le before))
    · rw [runLength]
      exact length
    · intro k
      have old := labels k
      rw [label] at old
      rw [label, cleared]
      split <;> omega
    · rw [runLength]
      exact bounded
  · -- no mark is left
    have unmarked : ∀ j, i ≤ j → memory.getD j 0 = 0 := by
      intro j _
      by_contra marked
      exact left ⟨j, marked⟩
    rw [skipGap_of_unmarked unmarked, if_pos (by omega), if_pos (by omega)] at pops popsToo
    exact ⟨_, _, _, pops, popsToo, Or.inl rfl⟩

/-- An empty window without marks, or one that begins with a mark. -/
structure Calm (writes : Writes) : Prop where
  length : writes.memory.length ≤ sizeMax
  labels : ∀ i, writes.label i ≤ 2 ^ 31
  window : writes.max < writes.min ∧ (∀ i, writes.label i = 0) ∨ writes.Active

theorem Tidy.calm {writes : Writes} (tidy : writes.Tidy) : writes.Calm := by
  refine ⟨tidy.length, tidy.labels, tidy.window.imp_left ?_⟩
  intro idle
  refine ⟨?_, idle.unmarked⟩
  rw [idle.min, idle.max]
  decide

theorem Calm.pop {writes : Writes} (calm : writes.Calm) :
    writes.pop = some (none, writes) ∨ ∃ id start size after, Pops writes id start size after := by
  rcases calm.window with ⟨empty, _⟩ | active
  · exact Or.inl (if_pos empty)
  · exact Or.inr (Tidy.pop ⟨calm.length, calm.labels, Or.inr active⟩ active)

/-- Popping fails, or it returns the message number of an entry without a mark. -/
def Corrupt (writes : Writes) : Prop :=
  writes.pop = none ∨
    ∃ start size after, writes.pop = some (some (2 ^ 32 - 1, start, size), after)

theorem Spanning.corrupt {writes : Writes} (spanning : writes.Spanning)
    (unmarked : writes.label writes.min = 0) : writes.Corrupt := by
  rcases spanning.pop with ⟨size, after, takes⟩
  have pops := takes.pop
  rw [unmarked] at pops
  exact Or.inr ⟨_, size, after, pops⟩

end Writes

namespace MessageSort

open Observation

/-- Calls with message numbers below `MAX_ID`. -/
def Query.Numbered : Query → Prop
  | .pushWrite write => write.msgId < 2 ^ 31
  | .popWrite | .canWrite _ _ _ => True

def askNumbered (sort : MessageSort) (query : {query : Query // query.Numbered}) :
    Option (Answer × MessageSort) :=
  ask sort query.1

/-- The same tables, but for a window that ends later. -/
def Stretched (first second : MessageSort) : Prop :=
  first = second ∨ ∃ k array changed, first.writes[k]? = some array ∧ array.Wider changed ∧
    second = { first with writes := first.writes.set k changed }

namespace Stretched

theorem of_set {sort : MessageSort} {k : ℕ} (bound : k < sort.writes.length)
    {array changed : Writes} (related : array = changed ∨ array.Wider changed)
    (dirty : SparseSet) :
    Stretched { sort with writes := sort.writes.set k array, dirty := dirty }
      { sort with writes := sort.writes.set k changed, dirty := dirty } := by
  rcases related with rfl | wider
  · exact Or.inl rfl
  · refine Or.inr ⟨k, array, changed, List.getElem?_set_self bound, wider, ?_⟩
    rw [List.set_set]

theorem set_other {sort : MessageSort} {j k : ℕ} {array changed : Writes}
    (found : sort.writes[k]? = some array) (wider : array.Wider changed) (differs : j ≠ k)
    (other : Writes) (dirty : SparseSet) :
    Stretched { sort with writes := sort.writes.set j other, dirty := dirty }
      { sort with writes := (sort.writes.set k changed).set j other, dirty := dirty } := by
  refine Or.inr ⟨k, array, changed, ?_, wider, ?_⟩
  · show (sort.writes.set j other)[k]? = some array
    rw [List.getElem?_set_ne differs]
    exact found
  · rw [List.set_comm other changed differs]

theorem pushWrite {first second : MessageSort} (stretched : Stretched first second) {msgId : ℕ}
    (small : msgId < 2 ^ 31) (slot offset size : ℕ) :
    first.pushWrite msgId slot offset size = none ∧ second.pushWrite msgId slot offset size = none ∨
      ∃ result firstAfter secondAfter,
        first.pushWrite msgId slot offset size = some (firstAfter, result) ∧
        second.pushWrite msgId slot offset size = some (secondAfter, result) ∧
        Stretched firstAfter secondAfter := by
  rcases stretched with rfl | ⟨k, array, changed, found, wider, rfl⟩
  · cases pushes : first.pushWrite msgId slot offset size with
    | none => exact Or.inl ⟨rfl, rfl⟩
    | some pushed => exact Or.inr ⟨pushed.2, pushed.1, pushed.1, rfl, rfl, Or.inl rfl⟩
  · simp only [MessageSort.pushWrite]
    by_cases nothing : size = 0
    · rw [if_pos nothing, if_pos nothing]
      exact Or.inr ⟨_, _, _, rfl, rfl, Or.inr ⟨k, array, changed, found, wider, rfl⟩⟩
    · rw [if_neg nothing, if_neg nothing]
      cases refers : first.slotToRegion[slot]? with
      | none => exact Or.inl ⟨rfl, rfl⟩
      | some entry =>
          simp only [getElem?_set_writes found]
          by_cases here : entry.region = k
          · subst here
            rw [if_pos rfl, found]
            have bound := (List.getElem?_eq_some_iff.mp found).1
            simp only
            generalize (entry.offset + offset + _) >>> first.msgGrainPower = start
            generalize subSize size _ >>> first.msgGrainPower = count
            rcases wider.push small start count with
              ⟨fails, failsToo⟩ | ⟨after, afterToo, pushes, pushesToo, related⟩
            · rw [fails, failsToo]
              exact Or.inl ⟨rfl, rfl⟩
            · rw [pushes, pushesToo]
              refine Or.inr ⟨_, _, _, rfl, rfl, ?_⟩
              rw [List.set_set]
              exact of_set bound related _
          · rw [if_neg here]
            cases foundToo : first.writes[entry.region]? with
            | none => exact Or.inl ⟨rfl, rfl⟩
            | some other =>
                simp only
                generalize other.push msgId _ _ = pushed
                cases pushed with
                | none => exact Or.inl ⟨rfl, rfl⟩
                | some after =>
                    exact Or.inr ⟨_, _, _, rfl, rfl, set_other found wider here after _⟩

theorem popDirty {first second : MessageSort} (stretched : Stretched first second) (left : ℕ) :
    MessageSort.popDirty left first = none ∧ MessageSort.popDirty left second = none ∨
      ∃ popped firstAfter secondAfter, MessageSort.popDirty left first = some (popped, firstAfter) ∧
        MessageSort.popDirty left second = some (popped, secondAfter) ∧
        Stretched firstAfter secondAfter := by
  induction left generalizing first second with
  | zero => exact Or.inr ⟨none, first, second, rfl, rfl, stretched⟩
  | succ left ih =>
      rcases stretched with rfl | ⟨k, array, changed, found, wider, rfl⟩
      · cases pops : MessageSort.popDirty (left + 1) first with
        | none => exact Or.inl ⟨rfl, rfl⟩
        | some result => exact Or.inr ⟨result.1, result.2, result.2, rfl, rfl, Or.inl rfl⟩
      · simp only [MessageSort.popDirty]
        cases listed : first.dirty.elements with
        | nil =>
            exact Or.inr ⟨none, _, _, rfl, rfl, Or.inr ⟨k, array, changed, found, wider, rfl⟩⟩
        | cons j rest =>
            simp only [getElem?_set_writes found]
            by_cases here : j = k
            · subst here
              rw [if_pos rfl, found]
              have bound := (List.getElem?_eq_some_iff.mp found).1
              rcases wider.pop with ⟨⟨id, start, size⟩, after, afterToo, pops, popsToo, related⟩
              simp only [pops, popsToo, Option.bind_some]
              cases region : first.regions[j]? with
              | none => exact Or.inl ⟨rfl, rfl⟩
              | some r =>
                  refine Or.inr ⟨_, _, _, rfl, rfl, ?_⟩
                  rw [List.set_set]
                  exact of_set bound related _
            · rw [if_neg here]
              cases foundToo : first.writes[j]? with
              | none => exact Or.inl ⟨rfl, rfl⟩
              | some other =>
                  simp only
                  cases pops : other.pop with
                  | none => exact Or.inl ⟨rfl, rfl⟩
                  | some result =>
                      rcases result with ⟨_ | piece, after⟩
                      · exact ih (set_other found wider here after _)
                      · simp only [Option.bind_some]
                        cases region : first.regions[j]? with
                        | none => exact Or.inl ⟨rfl, rfl⟩
                        | some r =>
                            exact Or.inr ⟨_, _, _, rfl, rfl, set_other found wider here after _⟩

theorem canWrite {first second : MessageSort} (stretched : Stretched first second)
    (msgId slot offset : ℕ) :
    first.canWrite msgId slot offset = second.canWrite msgId slot offset := by
  rcases stretched with rfl | ⟨k, array, changed, found, wider, rfl⟩
  · rfl
  · rcases wider.later with ⟨max, _, _, rfl⟩
    simp only [MessageSort.canWrite]
    cases first.slotToRegion[slot]? with
    | none => rfl
    | some entry =>
        simp only [getElem?_set_writes found]
        by_cases here : entry.region = k
        · rw [if_pos here, here, found]
          rfl
        · rw [if_neg here]

theorem dirty {first second : MessageSort} (stretched : Stretched first second) :
    first.dirty = second.dirty := by
  rcases stretched with rfl | ⟨k, array, changed, _, _, rfl⟩
  · rfl
  · rfl

/-- Where a window ends is never noticed. -/
theorem alike {first second : MessageSort} (stretched : Stretched first second) :
    Alike askNumbered first second := by
  refine alike_of_agree ?_ stretched
  rintro first second stretched ⟨query, numbered⟩
  apply agree_ask stretched
  · rintro write rfl
    exact stretched.pushWrite numbered write.slot write.offset write.size
  · have pops := stretched.popDirty first.dirty.size
    rw [← MessageSort.popWrite] at pops
    rw [stretched.dirty, ← MessageSort.popWrite] at pops
    exact pops
  · exact stretched.canWrite

end Stretched

/-- What is popped has a message number below `MAX_ID`. -/
structure Calm (sort : MessageSort) : Prop where
  roomy : sort.Roomy
  regions : sort.writes.length = sort.regions.length
  arrays : ∀ (k : ℕ) (array : Writes), sort.writes[k]? = some array → array.Calm

theorem Sound.calm {sort : MessageSort} (sound : sort.Sound) : sort.Calm where
  roomy := sound.tables.roomy sound.known
  regions := sound.tables.sameLength
  arrays k array found := (sound.tidy k array found).calm

theorem Calm.set {sort : MessageSort} (calm : sort.Calm) {j : ℕ} {array changed : Writes}
    {dirty : SparseSet} (found : sort.writes[j]? = some array) (changedCalm : changed.Calm)
    (roomy : Roomy { sort with writes := sort.writes.set j changed, dirty := dirty }) :
    Calm { sort with writes := sort.writes.set j changed, dirty := dirty } := by
  refine ⟨roomy, ?_, ?_⟩
  · rw [List.length_set]
    exact calm.regions
  · intro k other otherFound
    simp only [getElem?_set_writes found] at otherFound
    split at otherFound
    next =>
      rw [← Option.some.inj otherFound]
      exact changedCalm
    next => exact calm.arrays k other otherFound

/-- The grains with marks. -/
def marks (sort : MessageSort) : Set (ℕ × ℕ) := {grain | sort.label grain.1 grain.2 ≠ 0}

/-- Nothing has been popped, or a message number below `MAX_ID` with some of the marks. -/
def Fewer (sort : MessageSort) (popped : Option Popped) (after : MessageSort) : Prop :=
  after.Calm ∧ ∀ p, popped = some p → p.msgId < 2 ^ 31 ∧ after.marks ⊂ sort.marks

theorem marks_set {sort : MessageSort} {j : ℕ} {array : Writes}
    (found : sort.writes[j]? = some array) (dirty : SparseSet) :
    marks { sort with writes := sort.writes.set j array, dirty := dirty } = sort.marks := by
  ext grain
  show label _ grain.1 grain.2 ≠ 0 ↔ sort.label grain.1 grain.2 ≠ 0
  rw [label_set found]
  split
  next here => simp only [label, here, found, Option.map_some, Option.getD_some]
  next => rfl

/-- Popping from a region takes marks away. -/
theorem marks_ssubset {sort : MessageSort} {j id start size : ℕ} {array changed : Writes}
    (found : sort.writes[j]? = some array) (pops : Writes.Pops array id start size changed) :
    marks { sort with writes := sort.writes.set j changed } ⊂ sort.marks := by
  have first : start ≤ start ∧ start < start + size :=
    ⟨Nat.le_refl _, Nat.lt_add_of_pos_right pops.nonempty⟩
  have current : ∀ k, sort.label j k = array.label k := by
    intro k
    simp only [label, found, Option.map_some, Option.getD_some]
  have labels := label_set found changed sort.dirty
  rw [Set.ssubset_iff_of_subset]
  · refine ⟨(j, start), ?_, ?_⟩
    · show sort.label j start ≠ 0
      rw [current, pops.marked start first.1 first.2]
      exact Nat.succ_ne_zero id
    · intro stays
      apply stays
      rw [labels, if_pos rfl, pops.label, if_pos first]
  · rintro ⟨i, k⟩ marked
    change label _ i k ≠ 0 at marked
    show sort.label i k ≠ 0
    rw [labels] at marked
    split at marked
    next here =>
      rw [pops.label] at marked
      rw [here, current]
      split at marked
      next => exact absurd rfl marked
      next => exact marked
    next => exact marked

/-- Popping takes marks away. -/
theorem Calm.popWrite {sort : MessageSort} (calm : sort.Calm) :
    ∃ popped after, sort.popWrite = some (popped, after) ∧ Fewer sort popped after := by
  have clean : ∀ before, before.Calm ∧ before.marks = sort.marks → before.dirty.elements = [] →
      Fewer sort none before := fun _ kept _ => ⟨kept.1, by simp⟩
  apply popDirty_rule clean _ ⟨calm, rfl⟩ (Nat.le_of_eq calm.roomy.wellFormed.length_elements)
  rintro before j ⟨calm, same⟩ member
  have bound := calm.roomy.known j member
  have found : before.writes[j]? = some before.writes[j] := List.getElem?_eq_getElem bound
  refine ⟨_, found, ?_⟩
  generalize before.writes[j] = array at found
  rcases (calm.arrays j array found).pop with pops | ⟨id, start, size, changed, pops⟩
  · have erased := calm.set found (calm.arrays j array found) (calm.roomy.erase member array).1
    exact Or.inl ⟨array, pops, ⟨erased, (marks_set found _).trans same⟩,
      calm.roomy.fewer member array⟩
  · have numbered : j < before.regions.length := by
      rw [← calm.regions]
      exact bound
    have region : before.regions[j]? = some before.regions[j] :=
      List.getElem?_eq_getElem numbered
    have small := (calm.arrays j array found).labels start
    rw [pops.marked start (Nat.le_refl _) (Nat.lt_add_of_pos_right pops.nonempty)] at small
    refine Or.inr ⟨id, start, size, changed, _, pops.pop, region,
      calm.set found pops.tidy.calm (calm.roomy.set j changed), ?_⟩
    intro p isPopped
    rw [← Option.some.inj isPopped, ← same]
    exact ⟨small, marks_ssubset found pops⟩

/-- Some dirty region is corrupt. -/
structure Astray (sort : MessageSort) : Prop where
  roomy : sort.Roomy
  corrupt : ∃ j ∈ sort.dirty.elements, ∃ array : Writes, sort.writes[j]? = some array ∧
    array.Corrupt

/-- The corrupt region is popped at last. -/
theorem Astray.popDirty {sort : MessageSort} (astray : sort.Astray) {left : ℕ}
    (enough : sort.dirty.elements.length ≤ left) :
    MessageSort.popDirty left sort = none ∨
      ∃ popped after, MessageSort.popDirty left sort = some (some popped, after) ∧
        (popped.msgId = 2 ^ 32 - 1 ∨ after.Astray) := by
  induction left generalizing sort with
  | zero =>
      rcases astray.corrupt with ⟨j, member, _⟩
      rw [List.eq_nil_of_length_eq_zero (Nat.le_zero.mp enough)] at member
      cases member
  | succ left ih =>
      rcases astray with ⟨roomy, j, member, array, found, corrupt⟩
      rw [MessageSort.popDirty]
      cases dirty : sort.dirty.elements with
      | nil =>
          rw [dirty] at member
          cases member
      | cons i rest =>
          simp only
          by_cases here : i = j
          · subst here
            simp only [found]
            rcases corrupt with fails | ⟨start, size, after, pops⟩
            · exact Or.inl (by rw [fails, Option.bind_none])
            · simp only [pops, Option.bind_some]
              cases region : sort.regions[i]? with
              | none => exact Or.inl rfl
              | some r => exact Or.inr ⟨_, _, rfl, Or.inl rfl⟩
          · have first : i ∈ sort.dirty.elements := by
              rw [dirty]
              exact List.mem_cons_self
            cases foundToo : sort.writes[i]? with
            | none => exact Or.inl rfl
            | some other =>
                have stays : ∀ changed : Writes, (sort.writes.set i changed)[j]? = some array := by
                  intro changed
                  rw [List.getElem?_set_ne here]
                  exact found
                simp only
                cases pops : other.pop with
                | none => exact Or.inl rfl
                | some result =>
                    rcases result with ⟨_ | piece, changed⟩
                    · rcases roomy.erase first changed with ⟨erased, elements⟩
                      have others := SparseSet.eraseSwap_perm first
                      rw [← elements] at others
                      apply ih ⟨erased, j, ?_, array, stays changed, corrupt⟩
                      · have shorter := others.length_eq
                        rw [List.length_erase_of_mem first] at shorter
                        show (sort.dirty.erase i).elements.length ≤ left
                        omega
                      · exact others.mem_iff.mpr ((List.mem_erase_of_ne (Ne.symm here)).mpr member)
                    · simp only [Option.bind_some]
                      cases region : sort.regions[i]? with
                      | none => exact Or.inl rfl
                      | some r =>
                          exact Or.inr ⟨_, _, rfl, Or.inr
                            ⟨roomy.set i changed, j, member, array, stays changed, corrupt⟩⟩

/-- Popping everything tells a corrupt region from a sound one. -/
theorem Calm.not_alike {first second : MessageSort} (calm : first.Calm)
    (astray : second.Astray) : ¬Alike askNumbered first second := by
  have finite : ∀ sort : MessageSort, sort.Calm → sort.marks.Finite := fun sort calm =>
    finite_label fun k array found => (calm.arrays k array found).length
  generalize number : first.marks.ncard = left
  induction left using Nat.strong_induction_on generalizing first second with
  | _ left ih =>
      intro alike
      rcases calm.popWrite with ⟨popped, after, pops, afterCalm, fewer⟩
      have popsToo := astray.popDirty (Nat.le_of_eq astray.roomy.wellFormed.length_elements)
      rw [← MessageSort.popWrite] at popsToo
      rcases alike.agree ⟨.popWrite, trivial⟩ with
        ⟨fails, _⟩ | ⟨answer, firstAfter, secondAfter, answered, answeredToo, alikeAfter⟩
      · simp [askNumbered, ask, pops] at fails
      · rcases popsToo with fails | ⟨piece, afterToo, popsToo, noticed⟩
        · simp [askNumbered, ask, fails] at answeredToo
        · simp only [askNumbered, ask, pops, popsToo, Option.map_some, Option.some.injEq,
            Prod.mk.injEq] at answered answeredToo
          rcases answered with ⟨answered, rfl⟩
          rcases answeredToo with ⟨answeredToo, rfl⟩
          have same : popped = some piece := by
            rw [← answered, Answer.popped.injEq] at answeredToo
            exact answeredToo.symm
          rcases fewer piece same with ⟨small, subset⟩
          rcases noticed with bogus | stillAstray
          · omega
          · have smaller := Set.ncard_lt_ncard subset (finite first calm)
            rw [number] at smaller
            exact ih _ smaller afterCalm stillAstray rfl alikeAfter

end MessageSort

end Talpf
