import Talpf.MemoryTable

/-!
# The layout of global slots

What must agree between the processes about global slots is their layout: which
slots the two registers deal, which verbs slot belongs to a slot, and which
areas the processes have announced for it.  `Layout` is this abstract state,
with one operation for each collective action.  `Represents` relates a layout
to the registers of one process; every operation of the memory table is shown
to follow the operation on layouts.
-/

namespace Talpf

/-- The global slots, as all processes see them. -/
structure Layout (n : ℕ) where
  /-- Slots of the memory table -/
  dealer : SlotDealer
  /-- Slots of the verbs layer -/
  verbDealer : SlotDealer
  /-- The verbs slot of a slot -/
  verbOf : ℕ → ℕ
  /-- The areas that were exchanged for a slot -/
  board : ℕ → Fin n → MemoryRegistration

namespace Layout

variable {n : ℕ}

def initial : Layout n := ⟨.initial, .initial, fun _ => 0, fun _ _ => .null⟩

/-- Deal a slot, which is not known to the verbs layer yet. -/
def register (layout : Layout n) : Layout n := { layout with dealer := layout.dealer.deal.2 }

/-- Attach the next verbs slot and the exchanged areas to a slot. -/
def attach (layout : Layout n) (slot : ℕ) (areas : Fin n → MemoryRegistration) : Layout n where
  dealer := layout.dealer
  verbDealer := layout.verbDealer.deal.2
  verbOf := Function.update layout.verbOf slot layout.verbDealer.deal.1
  board := Function.update layout.board slot areas

/-- Attach one slot after the other. -/
def attachAll (layout : Layout n) : List ℕ → List (Fin n → MemoryRegistration) → Layout n
  | slot :: slots, areas :: boards => (layout.attach slot areas).attachAll slots boards
  | _, _ => layout

@[simp]
theorem dealer_attachAll (layout : Layout n) (slots : List ℕ)
    (boards : List (Fin n → MemoryRegistration)) :
    (layout.attachAll slots boards).dealer = layout.dealer := by
  fun_induction attachAll layout slots boards with
  | case1 layout slot slots areas boards ih => exact ih
  | case2 => rfl

/-- Drop a slot that is not known to the verbs layer yet. -/
def forget (layout : Layout n) (slot : ℕ) : Layout n :=
  { layout with dealer := layout.dealer.recycle slot }

/-- Drop a slot together with its verbs slot. -/
def detach (layout : Layout n) (slot : ℕ) : Layout n :=
  { layout with
    dealer := layout.dealer.recycle slot
    verbDealer := layout.verbDealer.recycle (layout.verbOf slot) }

/-- Slots that wait for their verbs slot are in use, and every other slot in use has a verbs slot
of its own. -/
structure WellFormed (layout : Layout n) (pending : List ℕ) : Prop where
  dealer : layout.dealer.WellFormed
  verbDealer : layout.verbDealer.WellFormed
  nodup : pending.Nodup
  pendingLive : ∀ slot ∈ pending, layout.dealer.Live slot
  attached : ∀ slot, layout.dealer.Live slot → slot ∉ pending →
    layout.verbDealer.Live (layout.verbOf slot)
  distinct : ∀ left right, layout.dealer.Live left → left ∉ pending →
    layout.dealer.Live right → right ∉ pending →
      layout.verbOf left = layout.verbOf right → left = right
  count : layout.verbDealer.liveCount + pending.length = layout.dealer.liveCount

variable {layout : Layout n} {pending : List ℕ} {slot : ℕ}

theorem wellFormed_initial : (initial : Layout n).WellFormed [] where
  dealer := SlotDealer.wellFormed_initial
  verbDealer := SlotDealer.wellFormed_initial
  nodup := List.nodup_nil
  pendingLive := by simp
  attached := by simp [initial]
  distinct := by simp [initial]
  count := rfl

theorem WellFormed.register (wellFormed : layout.WellFormed pending) :
    layout.register.WellFormed (pending ++ [layout.dealer.deal.1]) where
  dealer := wellFormed.dealer.deal
  verbDealer := wellFormed.verbDealer
  nodup := by
    rw [List.nodup_append]
    refine ⟨wellFormed.nodup, List.nodup_singleton _, fun slot member other single => ?_⟩
    rw [List.mem_singleton] at single
    rintro rfl
    exact layout.dealer.not_live_deal (single ▸ wellFormed.pendingLive slot member)
  pendingLive slot member := by
    refine (wellFormed.dealer.live_deal slot).mpr ?_
    rcases List.mem_append.mp member with old | new
    · exact Or.inl (wellFormed.pendingLive slot old)
    · exact Or.inr (List.mem_singleton.mp new)
  attached slot live notPending := by
    simp only [List.mem_append, List.mem_singleton, not_or] at notPending
    rcases (wellFormed.dealer.live_deal slot).mp live with old | new
    · exact wellFormed.attached slot old notPending.1
    · exact absurd new notPending.2
  distinct left right leftLive leftNot rightLive rightNot := by
    simp only [List.mem_append, List.mem_singleton, not_or] at leftNot rightNot
    have leftOld := ((wellFormed.dealer.live_deal left).mp leftLive).resolve_right leftNot.2
    have rightOld := ((wellFormed.dealer.live_deal right).mp rightLive).resolve_right rightNot.2
    exact wellFormed.distinct left right leftOld leftNot.1 rightOld rightNot.1
  count := by
    have := wellFormed.count
    have := wellFormed.dealer.liveCount_deal
    simp only [Layout.register, List.length_append, List.length_singleton]
    omega

theorem WellFormed.attach (wellFormed : layout.WellFormed (slot :: pending))
    (areas : Fin n → MemoryRegistration) : (layout.attach slot areas).WellFormed pending where
  dealer := wellFormed.dealer
  verbDealer := wellFormed.verbDealer.deal
  nodup := (List.nodup_cons.mp wellFormed.nodup).2
  pendingLive other member := wellFormed.pendingLive other (List.mem_cons_of_mem _ member)
  attached other live notPending := by
    refine (wellFormed.verbDealer.live_deal _).mpr ?_
    by_cases same : other = slot
    · subst same
      exact Or.inr (by simp [Layout.attach])
    · refine Or.inl ?_
      simp only [Layout.attach, Function.update_of_ne same]
      exact wellFormed.attached other live (by simp [same, notPending])
  distinct left right leftLive leftNot rightLive rightNot := by
    -- the new verbs slot was not in use, so it differs from all others
    have fresh : ∀ other, layout.dealer.Live other → other ≠ slot → other ∉ pending →
        layout.verbOf other ≠ layout.verbDealer.deal.1 := by
      intro other live differs notPending same
      have := wellFormed.attached other live (by simp [differs, notPending])
      exact layout.verbDealer.not_live_deal (same ▸ this)
    simp only [Layout.attach]
    by_cases leftSame : left = slot <;> by_cases rightSame : right = slot
    · intro _
      rw [leftSame, rightSame]
    · rw [leftSame, Function.update_self, Function.update_of_ne rightSame]
      exact fun same => absurd same.symm (fresh right rightLive rightSame rightNot)
    · rw [rightSame, Function.update_self, Function.update_of_ne leftSame]
      exact fun same => absurd same (fresh left leftLive leftSame leftNot)
    · rw [Function.update_of_ne leftSame, Function.update_of_ne rightSame]
      exact wellFormed.distinct left right leftLive (by simp [leftSame, leftNot]) rightLive
        (by simp [rightSame, rightNot])
  count := by
    have := wellFormed.count
    have := wellFormed.verbDealer.liveCount_deal
    simp only [Layout.attach, List.length_cons] at *
    omega

theorem WellFormed.forget (wellFormed : layout.WellFormed pending) (member : slot ∈ pending)
    {remaining : List ℕ} (remains : ∀ other, other ∈ remaining ↔ other ∈ pending ∧ other ≠ slot)
    (nodup : remaining.Nodup) (length : remaining.length + 1 = pending.length) :
    (layout.forget slot).WellFormed remaining where
  dealer := wellFormed.dealer.recycle (wellFormed.pendingLive slot member)
  verbDealer := wellFormed.verbDealer
  nodup := nodup
  pendingLive other otherMember := by
    have := (remains other).mp otherMember
    exact (SlotDealer.live_recycle _ (wellFormed.pendingLive slot member) other).mpr
      ⟨wellFormed.pendingLive other this.1, this.2⟩
  attached other live notRemaining := by
    have := (SlotDealer.live_recycle _ (wellFormed.pendingLive slot member) other).mp live
    refine wellFormed.attached other this.1 fun otherMember => notRemaining ?_
    exact (remains other).mpr ⟨otherMember, this.2⟩
  distinct left right leftLive leftNot rightLive rightNot := by
    have live := wellFormed.pendingLive slot member
    have leftOld := (SlotDealer.live_recycle _ live left).mp leftLive
    have rightOld := (SlotDealer.live_recycle _ live right).mp rightLive
    exact wellFormed.distinct left right
      leftOld.1 (fun old => leftNot ((remains left).mpr ⟨old, leftOld.2⟩))
      rightOld.1 (fun old => rightNot ((remains right).mpr ⟨old, rightOld.2⟩))
  count := by
    have := wellFormed.count
    have := wellFormed.dealer.liveCount_recycle (wellFormed.pendingLive slot member)
    simp only [Layout.forget] at *
    omega

theorem WellFormed.detach (wellFormed : layout.WellFormed pending)
    (live : layout.dealer.Live slot) (synced : slot ∉ pending) :
    (layout.detach slot).WellFormed pending where
  dealer := wellFormed.dealer.recycle live
  verbDealer := wellFormed.verbDealer.recycle (wellFormed.attached slot live synced)
  nodup := wellFormed.nodup
  pendingLive other member := by
    refine (SlotDealer.live_recycle _ live other).mpr ⟨wellFormed.pendingLive other member, ?_⟩
    rintro rfl
    exact synced member
  attached other otherLive notPending := by
    have old := (SlotDealer.live_recycle _ live other).mp otherLive
    refine (SlotDealer.live_recycle _ (wellFormed.attached slot live synced) _).mpr
      ⟨wellFormed.attached other old.1 notPending, fun same => old.2 ?_⟩
    exact wellFormed.distinct other slot old.1 notPending live synced same
  distinct left right leftLive leftNot rightLive rightNot :=
    wellFormed.distinct left right ((SlotDealer.live_recycle _ live left).mp leftLive).1 leftNot
      ((SlotDealer.live_recycle _ live right).mp rightLive).1 rightNot
  count := by
    have := wellFormed.count
    have := wellFormed.dealer.liveCount_recycle live
    have := wellFormed.verbDealer.liveCount_recycle (wellFormed.attached slot live synced)
    simp only [Layout.detach] at *
    omega

end Layout

open IBVerbs (describe)

/-- The global registers of process `pid` realise a layout. -/
structure Represents {n : ℕ} (pid : Fin n) (layout : Layout n) (pending : List ℕ)
    (table : MemoryRegister Memory) (verbs : MemoryRegister (MemorySlot n)) : Prop where
  layoutWellFormed : layout.WellFormed pending
  tableWellFormed : table.WellFormed
  verbsWellFormed : verbs.WellFormed
  tableDealer : table.dealer = layout.dealer
  verbsDealer : verbs.dealer = layout.verbDealer
  /-- Every slot in use has a record, and if the verbs layer knows it, the record points to a verbs
  slot with the exchanged areas, among them the own one. -/
  records : ∀ slot, layout.dealer.Live slot → ∃ memory, table.lookup slot = some memory ∧
    (slot ∉ pending → memory.slot = CombinedMemoryRegister.toGlobal (layout.verbOf slot) ∧
      ∃ entry, verbs.lookup (layout.verbOf slot) = some entry ∧ entry.glob = layout.board slot ∧
        layout.board slot pid = describe memory.addr memory.size entry.mr)

namespace Represents

variable {n : ℕ} {pid : Fin n} {layout : Layout n} {pending : List ℕ}
  {table : MemoryRegister Memory} {verbs : MemoryRegister (MemorySlot n)}

theorem initial (pid : Fin n) : Represents pid .initial [] .empty .empty where
  layoutWellFormed := Layout.wellFormed_initial
  tableWellFormed := MemoryRegister.wellFormed_empty
  verbsWellFormed := MemoryRegister.wellFormed_empty
  tableDealer := rfl
  verbsDealer := rfl
  records := by simp [Layout.initial]

/-- Adding a record to the table follows `register`. -/
theorem register (represents : Represents pid layout pending table verbs) (memory : Memory)
    (room : layout.dealer.liveCount < table.capacity) :
    ∃ after, table.add memory = some (layout.dealer.deal.1, after) ∧
      after.capacity = table.capacity ∧
      (∀ other, after.lookup other =
        if layout.dealer.deal.1 = other then some memory else table.lookup other) ∧
      Represents pid layout.register (pending ++ [layout.dealer.deal.1]) after verbs := by
  have dealt : table.dealer.deal.1 < table.slots.length :=
    represents.tableWellFormed.deal_lt (by rw [represents.tableDealer]; exact room)
  have added := table.add_eq memory dealt
  rw [represents.tableDealer] at added
  refine ⟨_, added, by simp [MemoryRegister.capacity], MemoryRegister.lookup_add added, ?_⟩
  rcases MemoryRegister.add_cases added with ⟨_, dealer, _, _, _⟩
  refine
    { layoutWellFormed := represents.layoutWellFormed.register
      tableWellFormed := represents.tableWellFormed.add added
      verbsWellFormed := represents.verbsWellFormed
      tableDealer := by rw [dealer, represents.tableDealer]; rfl
      verbsDealer := represents.verbsDealer
      records := fun slot live => ?_ }
  rw [MemoryRegister.lookup_add added]
  rcases (represents.layoutWellFormed.dealer.live_deal slot).mp live with old | rfl
  · have differs : layout.dealer.deal.1 ≠ slot := fun same =>
      layout.dealer.not_live_deal (same ▸ old)
    rcases represents.records slot old with ⟨record, found, rest⟩
    refine ⟨record, by rw [if_neg differs, found], fun notPending => rest fun member => ?_⟩
    exact notPending (List.mem_append_left _ member)
  · exact ⟨memory, by rw [if_pos rfl], fun notPending => absurd (by simp) notPending⟩

/-- Removing a slot that only the table knows follows `forget`. -/
theorem forget (represents : Represents pid layout pending table verbs) {slot : ℕ}
    (member : slot ∈ pending) {remaining : List ℕ}
    (remains : ∀ other, other ∈ remaining ↔ other ∈ pending ∧ other ≠ slot)
    (nodup : remaining.Nodup) (length : remaining.length + 1 = pending.length) :
    ∃ after, table.remove slot = some after ∧ after.slots = table.slots ∧
      Represents pid (layout.forget slot) remaining after verbs := by
  have live := represents.layoutWellFormed.pendingLive slot member
  have tableLive : table.dealer.Live slot := by rw [represents.tableDealer]; exact live
  rcases Option.isSome_iff_exists.mp (represents.tableWellFormed.remove_isSome tableLive)
    with ⟨after, removed⟩
  rcases MemoryRegister.remove_cases removed with ⟨dealer, slots, _⟩
  refine ⟨after, removed, slots,
    { layoutWellFormed := represents.layoutWellFormed.forget member remains nodup length
      tableWellFormed := represents.tableWellFormed.remove tableLive removed
      verbsWellFormed := represents.verbsWellFormed
      tableDealer := by rw [dealer, represents.tableDealer]; rfl
      verbsDealer := represents.verbsDealer
      records := fun other otherLive => ?_ }⟩
  have old := (SlotDealer.live_recycle _ live other).mp otherLive
  rcases represents.records other old.1 with ⟨record, found, rest⟩
  refine ⟨record, by rw [MemoryRegister.lookup, slots]; exact found, fun notRemaining => ?_⟩
  exact rest fun otherMember => notRemaining ((remains other).mpr ⟨otherMember, old.2⟩)

/-- Removing a slot and its verbs slot follows `detach`. -/
theorem detach (represents : Represents pid layout pending table verbs) {slot : ℕ}
    (live : layout.dealer.Live slot) (synced : slot ∉ pending) :
    ∃ tableAfter verbsAfter, table.remove slot = some tableAfter ∧
      verbs.remove (layout.verbOf slot) = some verbsAfter ∧
      tableAfter.slots = table.slots ∧ verbsAfter.slots = verbs.slots ∧
      Represents pid (layout.detach slot) pending tableAfter verbsAfter := by
  have tableLive : table.dealer.Live slot := by rw [represents.tableDealer]; exact live
  have verbsLive : verbs.dealer.Live (layout.verbOf slot) := by
    rw [represents.verbsDealer]
    exact represents.layoutWellFormed.attached slot live synced
  rcases Option.isSome_iff_exists.mp (represents.tableWellFormed.remove_isSome tableLive)
    with ⟨tableAfter, tableRemoved⟩
  rcases Option.isSome_iff_exists.mp (represents.verbsWellFormed.remove_isSome verbsLive)
    with ⟨verbsAfter, verbsRemoved⟩
  rcases MemoryRegister.remove_cases tableRemoved with ⟨tableDealer, tableSlots, _⟩
  rcases MemoryRegister.remove_cases verbsRemoved with ⟨verbsDealer, verbsSlots, _⟩
  refine ⟨tableAfter, verbsAfter, tableRemoved, verbsRemoved, tableSlots, verbsSlots,
    { layoutWellFormed := represents.layoutWellFormed.detach live synced
      tableWellFormed := represents.tableWellFormed.remove tableLive tableRemoved
      verbsWellFormed := represents.verbsWellFormed.remove verbsLive verbsRemoved
      tableDealer := by rw [tableDealer, represents.tableDealer]; rfl
      verbsDealer := by rw [verbsDealer, represents.verbsDealer]; rfl
      records := fun other otherLive => ?_ }⟩
  have old := (SlotDealer.live_recycle _ live other).mp otherLive
  rcases represents.records other old.1 with ⟨record, found, rest⟩
  refine ⟨record, by rw [MemoryRegister.lookup, tableSlots]; exact found, fun notPending => ?_⟩
  rcases rest notPending with ⟨slotEq, entry, entryFound, glob, own⟩
  exact ⟨slotEq, entry, by rw [MemoryRegister.lookup, verbsSlots]; exact entryFound, glob, own⟩

/-- Registering a pending slot with the verbs layer follows `attach`. -/
theorem attach {slot : ℕ} (represents : Represents pid layout (slot :: pending) table verbs)
    {memory : Memory} (found : table.lookup slot = some memory) (mr : Option Mr)
    {areas : Fin n → MemoryRegistration} (own : areas pid = describe memory.addr memory.size mr)
    (room : layout.verbDealer.liveCount < verbs.capacity) (blank : Fin n → MemoryRegistration) :
    ∃ after, verbs.add ⟨mr, blank⟩ = some (layout.verbDealer.deal.1, after) ∧
      after.capacity = verbs.capacity ∧
      Represents pid (layout.attach slot areas) pending
        (table.update slot fun memory =>
          { memory with slot := CombinedMemoryRegister.toGlobal layout.verbDealer.deal.1 })
        (after.update layout.verbDealer.deal.1 fun entry => { entry with glob := areas }) := by
  have dealt : verbs.dealer.deal.1 < verbs.slots.length :=
    represents.verbsWellFormed.deal_lt (by rw [represents.verbsDealer]; exact room)
  have added := verbs.add_eq ⟨mr, blank⟩ dealt
  rw [represents.verbsDealer] at added
  refine ⟨_, added, by simp [MemoryRegister.capacity], ?_⟩
  rcases MemoryRegister.add_cases added with ⟨_, dealer, _, _, _⟩
  refine
    { layoutWellFormed := represents.layoutWellFormed.attach areas
      tableWellFormed := represents.tableWellFormed.update _ _
      verbsWellFormed := (represents.verbsWellFormed.add added).update _ _
      tableDealer := represents.tableDealer
      verbsDealer := by
        rw [MemoryRegister.dealer_update, dealer, represents.verbsDealer]; rfl
      records := fun other live => ?_ }
  rw [MemoryRegister.lookup_update]
  simp only [Layout.attach, MemoryRegister.lookup_update, MemoryRegister.lookup_add added]
  by_cases same : slot = other
  · subst same
    refine ⟨_, by rw [if_pos rfl, found]; rfl, fun _ => ?_⟩
    simp [own]
  · rcases represents.records other live with ⟨record, recordFound, rest⟩
    refine ⟨record, by rw [if_neg same, recordFound], fun notPending => ?_⟩
    have notIn : other ∉ slot :: pending := by simp [Ne.symm same, notPending]
    rcases rest notIn with ⟨slotEq, entry, entryFound, glob, ownEntry⟩
    have differs : layout.verbDealer.deal.1 ≠ layout.verbOf other := fun dealtSame =>
      layout.verbDealer.not_live_deal
        (dealtSame ▸ represents.layoutWellFormed.attached other live notIn)
    rw [Function.update_of_ne (Ne.symm same), Function.update_of_ne (Ne.symm same),
      if_neg differs, if_neg differs]
    exact ⟨slotEq, entry, entryFound, glob, ownEntry⟩

/-- Reserving memory keeps what the registers represent. -/
theorem reserve (represents : Represents pid layout pending table verbs)
    (tableFaults verbsFaults : ReserveFaults) (tableDefault : Memory)
    (verbsDefault : MemorySlot n) (tableSize verbsSize : ℕ) :
    Represents pid layout pending (table.reserve tableFaults tableDefault tableSize).1
      (verbs.reserve verbsFaults verbsDefault verbsSize).1 where
  layoutWellFormed := represents.layoutWellFormed
  tableWellFormed := represents.tableWellFormed.reserve _ _ _
  verbsWellFormed := represents.verbsWellFormed.reserve _ _ _
  tableDealer := by rw [MemoryRegister.dealer_reserve, represents.tableDealer]
  verbsDealer := by rw [MemoryRegister.dealer_reserve, represents.verbsDealer]
  records slot live := by
    have tableDealt : slot < table.minNewSlotNr := by
      have := live.1
      rwa [← represents.tableDealer] at this
    rw [represents.tableWellFormed.lookup_reserve _ _ _ tableDealt]
    rcases represents.records slot live with ⟨record, found, rest⟩
    refine ⟨record, found, fun notPending => ?_⟩
    have verbsDealt : layout.verbOf slot < verbs.minNewSlotNr := by
      have := (represents.layoutWellFormed.attached slot live notPending).1
      rwa [← represents.verbsDealer] at this
    rw [represents.verbsWellFormed.lookup_reserve _ _ _ verbsDealt]
    exact rest notPending

end Represents

end Talpf
