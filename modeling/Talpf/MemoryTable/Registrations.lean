import Talpf.MemoryTable.Exchange

/-!
# Registrations by the calls of a process

A process registers and deregisters memory areas, grows the register as
`MessageQueue::resizeMemreg` does, and syncs.  `Node` runs these calls on the
memory table and keeps a record of the registrations that the process made.
`Ledger` is what the caller has to keep track of in order to call correctly.
The invariant `Consistent` relates both to the layout that all processes share.
-/

namespace Talpf

/-- A registration that a process has made. -/
structure Registration where
  slot : ℕ
  mem : ℕ
  size : ℕ
  /-- It has not been deregistered. -/
  live : Bool
deriving DecidableEq, Repr

namespace Registration

/-- The slot within its register. -/
def number (registration : Registration) : ℕ := registration.slot / 2

/-- What must agree between the processes about a global registration. -/
def key (registration : Registration) : ℕ × Bool := (registration.slot, registration.live)

def close (registration : Registration) : Registration := { registration with live := false }

/-- The slots of the live registrations. -/
def liveNumbers (registrations : List Registration) : List ℕ :=
  (registrations.filter live).map number

end Registration

open Registration (liveNumbers)

/-- The live registrations are the live slots of a dealer. -/
structure Holds (dealer : SlotDealer) (registrations : List Registration) : Prop where
  wellFormed : dealer.WellFormed
  nodup : (liveNumbers registrations).Nodup
  live : ∀ slot ∈ liveNumbers registrations, dealer.Live slot
  count : dealer.liveCount = (liveNumbers registrations).length

namespace Holds

variable {dealer : SlotDealer} {registrations : List Registration} {registration : Registration}

theorem initial : Holds .initial [] :=
  ⟨SlotDealer.wellFormed_initial, List.nodup_nil, by simp [liveNumbers], rfl⟩

theorem mem_liveNumbers (member : registration ∈ registrations)
    (isLive : registration.live = true) :
    registration.number ∈ liveNumbers registrations :=
  List.mem_map_of_mem (List.mem_filter.mpr ⟨member, isLive⟩)

/-- A new registration holds the slot that is dealt. -/
theorem deal (holds : Holds dealer registrations) (isLive : registration.live = true)
    (dealt : registration.number = dealer.deal.1) :
    Holds dealer.deal.2 (registrations ++ [registration]) := by
  have numbers : liveNumbers (registrations ++ [registration]) =
      liveNumbers registrations ++ [dealer.deal.1] := by
    simp [liveNumbers, isLive, dealt]
  refine ⟨holds.wellFormed.deal, ?_, ?_, ?_⟩ <;> rw [numbers]
  · rw [List.nodup_append]
    refine ⟨holds.nodup, List.nodup_singleton _, fun slot member other single => ?_⟩
    rw [List.mem_singleton] at single
    rintro rfl
    exact dealer.not_live_deal (single ▸ holds.live slot member)
  · intro slot member
    refine (holds.wellFormed.live_deal slot).mpr ?_
    rcases List.mem_append.mp member with old | new
    · exact Or.inl (holds.live slot old)
    · exact Or.inr (List.mem_singleton.mp new)
  · rw [List.length_append, List.length_singleton, ← holds.count]
    exact holds.wellFormed.liveCount_deal

theorem split_of_getElem? {k : ℕ} (found : registrations[k]? = some registration) :
    ∃ before after, registrations = before ++ registration :: after ∧
      registrations.set k registration.close = before ++ registration.close :: after := by
  rcases List.getElem?_eq_some_iff.mp found with ⟨bound, rfl⟩
  refine ⟨registrations.take k, registrations.drop (k + 1), ?_, ?_⟩
  · rw [List.getElem_cons_drop, List.take_append_drop]
  · rw [List.set_eq_take_append_cons_drop, if_pos bound]

/-- A registration that is closed gives its slot back. -/
theorem recycle (holds : Holds dealer registrations) {k : ℕ}
    (found : registrations[k]? = some registration) (isLive : registration.live = true) :
    Holds (dealer.recycle registration.number) (registrations.set k registration.close) := by
  have live := holds.live _ (mem_liveNumbers (List.mem_of_getElem? found) isLive)
  rcases split_of_getElem? found with ⟨before, after, split, closed⟩
  have numbers : liveNumbers registrations =
      liveNumbers before ++ registration.number :: liveNumbers after := by
    simp [liveNumbers, split, isLive]
  have numbersClosed : liveNumbers (registrations.set k registration.close) =
      liveNumbers before ++ liveNumbers after := by
    rw [closed]
    simp [liveNumbers, Registration.close]
  have nodup := holds.nodup
  rw [numbers, List.nodup_middle, List.nodup_cons] at nodup
  refine ⟨holds.wellFormed.recycle live, ?_, ?_, ?_⟩ <;> rw [numbersClosed]
  · exact nodup.2
  · intro slot member
    refine (SlotDealer.live_recycle _ live slot).mpr ⟨holds.live slot ?_, ?_⟩
    · rw [numbers]
      rcases List.mem_append.mp member with early | late
      · exact List.mem_append_left _ early
      · exact List.mem_append_right _ (List.mem_cons_of_mem _ late)
    · rintro rfl
      exact nodup.1 member
  · have := holds.wellFormed.liveCount_recycle live
    have := holds.count
    rw [numbers] at this
    simp only [List.length_append, List.length_cons] at *
    omega

end Holds

/-- The calls of a process.  A registration is referred to by its position among the registrations
of its kind. -/
inductive Call where
  | registerLocal (mem size : ℕ)
  | deregisterLocal (k : ℕ)
  | reserve (size : ℕ)
  | registerGlobal (mem size : ℕ)
  | deregisterGlobal (k : ℕ)
  | sync
deriving DecidableEq, Repr

/-- The calls that all processes have to make in the same order. -/
inductive GlobalCall where
  | register
  | deregister (k : ℕ)
  | sync
deriving DecidableEq, Repr

namespace Call

/-- The part of a call that is common to all processes. -/
def global : Call → Option GlobalCall
  | .registerGlobal _ _ => some .register
  | .deregisterGlobal k => some (.deregister k)
  | .sync => some .sync
  | .registerLocal _ _ | .deregisterLocal _ | .reserve _ => none

end Call

/-- What a caller has to know about its own calls. -/
structure Ledger where
  capacity : ℕ
  /-- Which of the registrations are live. -/
  locals : List Bool
  globals : List Bool
deriving DecidableEq, Repr

namespace Ledger

def initial : Ledger := ⟨0, [], []⟩

/-- Make a call that fulfils the contract: registrations fit into the reserved capacity, only live
registrations are removed, and no more is reserved than the device supports. -/
def accept (maxMr : ℕ) (ledger : Ledger) : Call → Option Ledger
  | .registerLocal _ _ =>
      if ledger.locals.count true < ledger.capacity then
        some { ledger with locals := ledger.locals ++ [true] }
      else none
  | .deregisterLocal k =>
      if ledger.locals[k]? = some true then
        some { ledger with locals := ledger.locals.set k false }
      else none
  | .reserve size =>
      if size ≤ 2 ^ 31 - 1 ∧ size ≤ maxMr then
        some { ledger with capacity := max ledger.capacity size }
      else none
  | .registerGlobal _ _ =>
      if ledger.globals.count true < ledger.capacity then
        some { ledger with globals := ledger.globals ++ [true] }
      else none
  | .deregisterGlobal k =>
      if ledger.globals[k]? = some true then
        some { ledger with globals := ledger.globals.set k false }
      else none
  | .sync => some ledger

end Ledger

/-- A process together with the registrations that it has made. -/
structure Node (n : ℕ) where
  table : MemoryTable
  verbs : IBVerbs n
  locals : List Registration
  globals : List Registration

namespace Node

variable {n : ℕ}

def initial (device : Device n) : Node n := ⟨.initial, .initial device, [], []⟩

/-- Remove the `k`-th registration of a list. -/
def deregister (node : Node n) (registrations : List Registration) (k : ℕ) :
    Option (MemoryTable × IBVerbs n × List Registration) :=
  match registrations[k]? with
  | none => none
  | some registration =>
      if registration.live then
        (node.table.remove node.verbs registration.slot).map fun (table, verbs) =>
          (table, verbs, registrations.set k registration.close)
      else none

/-- A call that takes no part in communication.  `none` stands for a failed assertion, an
exception, or the removal of something that is not registered. -/
def step (pid : Fin n) (node : Node n) : Call → Option (Node n)
  | .registerLocal mem size =>
      match node.table.addLocal pid node.verbs mem size with
      | some ((table, verbs), .ok slot) =>
          some { node with
            table := table
            verbs := verbs
            locals := node.locals ++ [⟨slot, mem, size, true⟩] }
      | _ => none
  | .deregisterLocal k =>
      (node.deregister node.locals k).map fun (table, verbs, locals) =>
        { node with table := table, verbs := verbs, locals := locals }
  | .reserve size =>
      -- only ever called to grow
      if node.table.capacity < size then
        match node.table.reserve .none node.verbs size with
        | ((table, verbs), none) => some { node with table := table, verbs := verbs }
        | _ => none
      else some node
  | .registerGlobal mem size =>
      (node.table.addGlobal mem size).map fun (table, slot) =>
        { node with table := table, globals := node.globals ++ [⟨slot, mem, size, true⟩] }
  | .deregisterGlobal k =>
      (node.deregister node.globals k).map fun (table, verbs, globals) =>
        { node with table := table, verbs := verbs, globals := globals }
  | .sync => none

end Node

/-- What all processes agree on between two syncs. -/
structure Shared (n : ℕ) where
  layout : Layout n
  /-- The slots that the next sync visits, in this order. -/
  pending : List ℕ
  keys : List (ℕ × Bool)

namespace Shared

variable {n : ℕ}

def initial : Shared n := ⟨.initial, [], []⟩

/-- The effect of a global call that takes no part in communication. -/
def advance (shared : Shared n) : GlobalCall → Shared n
  | .register =>
      { layout := shared.layout.register
        pending := shared.pending ++ [shared.layout.dealer.deal.1]
        keys := shared.keys ++
          [(CombinedMemoryRegister.toGlobal shared.layout.dealer.deal.1, true)] }
  | .deregister k =>
      match shared.keys[k]? with
      | none => shared
      | some (slot, _) =>
          if slot / 2 ∈ shared.pending then
            { layout := shared.layout.forget (slot / 2)
              pending := SparseSet.eraseSwap shared.pending (slot / 2)
              keys := shared.keys.set k (slot, false) }
          else
            { layout := shared.layout.detach (slot / 2)
              pending := shared.pending
              keys := shared.keys.set k (slot, false) }
  | .sync => shared

end Shared

/-- The local registers of the table and of the verbs layer deal the same slots. -/
structure LocalsMatch {n : ℕ} (table : MemoryRegister Memory)
    (verbs : MemoryRegister (MemorySlot n)) (locals : List Registration) : Prop where
  tableWellFormed : table.WellFormed
  verbsWellFormed : verbs.WellFormed
  sameDealer : verbs.dealer = table.dealer
  holds : Holds table.dealer locals
  odd : ∀ registration ∈ locals,
    registration.slot = CombinedMemoryRegister.toLocal registration.number
  records : ∀ slot, table.dealer.Live slot → ∃ memory, table.lookup slot = some memory ∧
    memory.slot = CombinedMemoryRegister.toLocal slot

namespace LocalsMatch

variable {n : ℕ} {table : MemoryRegister Memory} {verbs : MemoryRegister (MemorySlot n)}
  {locals : List Registration}

theorem initial : LocalsMatch (n := n) .empty .empty [] where
  tableWellFormed := MemoryRegister.wellFormed_empty
  verbsWellFormed := MemoryRegister.wellFormed_empty
  sameDealer := rfl
  holds := Holds.initial
  odd := by simp
  records slot live := absurd live (SlotDealer.not_live_initial slot)

/-- Both registers deal the same slot to a new registration. -/
theorem register (matched : LocalsMatch table verbs locals)
    (tableRoom : table.dealer.liveCount < table.capacity)
    (verbsRoom : table.dealer.liveCount < verbs.capacity) (mem size : ℕ) (entry : MemorySlot n)
    (change : MemorySlot n → MemorySlot n) :
    ∃ tableAfter verbsAfter,
      verbs.add entry = some (table.dealer.deal.1, verbsAfter) ∧
      table.add ⟨mem, size, CombinedMemoryRegister.toLocal table.dealer.deal.1⟩ =
        some (table.dealer.deal.1, tableAfter) ∧
      tableAfter.capacity = table.capacity ∧ verbsAfter.capacity = verbs.capacity ∧
      LocalsMatch tableAfter (verbsAfter.update table.dealer.deal.1 change)
        (locals ++ [⟨CombinedMemoryRegister.toLocal table.dealer.deal.1, mem, size, true⟩]) := by
  have verbsDealt := matched.verbsWellFormed.deal_lt (by rw [matched.sameDealer]; exact verbsRoom)
  have verbsAdded := verbs.add_eq entry verbsDealt
  have tableAdded := table.add_eq
    ⟨mem, size, CombinedMemoryRegister.toLocal table.dealer.deal.1⟩
    (matched.tableWellFormed.deal_lt tableRoom)
  rw [matched.sameDealer] at verbsAdded
  have verbsCases := MemoryRegister.add_cases verbsAdded
  have tableCases := MemoryRegister.add_cases tableAdded
  have number : (⟨CombinedMemoryRegister.toLocal table.dealer.deal.1, mem, size, true⟩ :
      Registration).number = table.dealer.deal.1 := by
    simp only [Registration.number, CombinedMemoryRegister.toLocal]
    omega
  refine ⟨_, _, verbsAdded, tableAdded, MemoryRegister.capacity_add tableAdded,
    MemoryRegister.capacity_add verbsAdded, ?_⟩
  refine
    { tableWellFormed := matched.tableWellFormed.add tableAdded
      verbsWellFormed := (matched.verbsWellFormed.add verbsAdded).update _ _
      sameDealer := by
        rw [MemoryRegister.dealer_update, verbsCases.2.1, tableCases.2.1, matched.sameDealer]
      holds := by
        rw [tableCases.2.1]
        exact matched.holds.deal rfl number
      odd := fun registration member => ?_
      records := fun slot live => ?_ }
  · rcases List.mem_append.mp member with old | new
    · exact matched.odd registration old
    · rw [List.mem_singleton.mp new, number]
  · rw [tableCases.2.1] at live
    rw [MemoryRegister.lookup_add tableAdded]
    rcases (matched.tableWellFormed.dealer.live_deal slot).mp live with old | rfl
    · have differs : table.dealer.deal.1 ≠ slot := fun same =>
        table.dealer.not_live_deal (same ▸ old)
      rw [if_neg differs]
      exact matched.records slot old
    · exact ⟨_, by rw [if_pos rfl], rfl⟩

/-- A registration that is removed leaves both registers. -/
theorem deregister (matched : LocalsMatch table verbs locals) {k : ℕ}
    {registration : Registration} (found : locals[k]? = some registration)
    (isLive : registration.live = true) :
    ∃ memory tableAfter verbsAfter, table.lookup registration.number = some memory ∧
      memory.slot = CombinedMemoryRegister.toLocal registration.number ∧
      verbs.remove registration.number = some verbsAfter ∧
      table.remove registration.number = some tableAfter ∧
      tableAfter.capacity = table.capacity ∧ verbsAfter.capacity = verbs.capacity ∧
      LocalsMatch tableAfter verbsAfter (locals.set k registration.close) := by
  have member := List.mem_of_getElem? found
  have live := matched.holds.live _ (Holds.mem_liveNumbers member isLive)
  have verbsLive : verbs.dealer.Live registration.number := by
    rw [matched.sameDealer]
    exact live
  rcases matched.records _ live with ⟨memory, memoryFound, memorySlot⟩
  rcases Option.isSome_iff_exists.mp (matched.tableWellFormed.remove_isSome live)
    with ⟨tableAfter, tableRemoved⟩
  rcases Option.isSome_iff_exists.mp (matched.verbsWellFormed.remove_isSome verbsLive)
    with ⟨verbsAfter, verbsRemoved⟩
  rcases MemoryRegister.remove_cases tableRemoved with ⟨tableDealer, tableSlots, _⟩
  rcases MemoryRegister.remove_cases verbsRemoved with ⟨verbsDealer, verbsSlots, _⟩
  refine ⟨memory, tableAfter, verbsAfter, memoryFound, memorySlot, verbsRemoved, tableRemoved,
    MemoryRegister.capacity_of_slots tableSlots, MemoryRegister.capacity_of_slots verbsSlots, ?_⟩
  refine
    { tableWellFormed := matched.tableWellFormed.remove live tableRemoved
      verbsWellFormed := matched.verbsWellFormed.remove verbsLive verbsRemoved
      sameDealer := by rw [tableDealer, verbsDealer, matched.sameDealer]
      holds := by
        rw [tableDealer]
        exact matched.holds.recycle found isLive
      odd := fun other otherMember => ?_
      records := fun slot slotLive => ?_ }
  · rcases List.mem_or_eq_of_mem_set otherMember with old | rfl
    · exact matched.odd other old
    · exact matched.odd registration member
  · rw [tableDealer] at slotLive
    have old := (SlotDealer.live_recycle _ live slot).mp slotLive
    rw [MemoryRegister.lookup, tableSlots]
    exact matched.records slot old.1

/-- Reserving memory changes no registration. -/
theorem reserve (matched : LocalsMatch table verbs locals) (tableFaults verbsFaults : ReserveFaults)
    (tableDefault : Memory) (verbsDefault : MemorySlot n) (tableSize verbsSize : ℕ) :
    LocalsMatch (table.reserve tableFaults tableDefault tableSize).1
      (verbs.reserve verbsFaults verbsDefault verbsSize).1 locals where
  tableWellFormed := matched.tableWellFormed.reserve _ _ _
  verbsWellFormed := matched.verbsWellFormed.reserve _ _ _
  sameDealer := by
    rw [MemoryRegister.dealer_reserve, MemoryRegister.dealer_reserve, matched.sameDealer]
  holds := by
    rw [MemoryRegister.dealer_reserve]
    exact matched.holds
  odd := matched.odd
  records slot live := by
    rw [MemoryRegister.dealer_reserve] at live
    rw [matched.tableWellFormed.lookup_reserve _ _ _ live.1]
    exact matched.records slot live

end LocalsMatch

namespace MemoryTable

namespace Realises

variable {n : ℕ} {pid : Fin n} {layout : Layout n} {pending : List ℕ} {table : MemoryTable}
  {verbs : IBVerbs n}

/-- A new global slot becomes pending. -/
theorem addGlobal (realises : Realises pid layout pending table verbs) (mem size : ℕ)
    (fits : layout.dealer.liveCount < table.memreg.globalRegister.capacity) :
    ∃ globalRegister added,
      table.addGlobal mem size =
        some ({ table with
          memreg := { table.memreg with globalRegister := globalRegister }
          added := added }, CombinedMemoryRegister.toGlobal layout.dealer.deal.1) ∧
      globalRegister.capacity = table.memreg.globalRegister.capacity ∧
      added.max = table.added.max ∧
      (∀ other, globalRegister.lookup other =
        if layout.dealer.deal.1 = other then some ⟨mem, size, Memory.invalidSlot⟩
        else table.memreg.globalRegister.lookup other) ∧
      Realises pid layout.register (pending ++ [layout.dealer.deal.1])
        { table with
          memreg := { table.memreg with globalRegister := globalRegister }
          added := added } verbs := by
  rcases realises.represents.register ⟨mem, size, Memory.invalidSlot⟩ fits with
    ⟨globalRegister, added, capacity, lookup, represents⟩
  have bound : layout.dealer.deal.1 < table.memreg.globalRegister.capacity :=
    (MemoryRegister.add_cases added).2.2.1
  have fresh : ¬table.added.contains
      (CombinedMemoryRegister.toGlobal layout.dealer.deal.1) = true := by
    rw [realises.contains_toGlobal bound]
    intro member
    exact layout.dealer.not_live_deal (realises.represents.layoutWellFormed.pendingLive _ member)
  have lower : table.added.min ≤ CombinedMemoryRegister.toGlobal layout.dealer.deal.1 := by
    rw [realises.addedMin]
    exact Nat.zero_le _
  have upper : CombinedMemoryRegister.toGlobal layout.dealer.deal.1 ≤ table.added.max := by
    have := realises.addedMax
    simp only [CombinedMemoryRegister.toGlobal]
    omega
  rcases realises.addedWellFormed.insert lower upper fresh with ⟨addedWellFormed, elements⟩
  rcases table.added.range_insert (CombinedMemoryRegister.toGlobal layout.dealer.deal.1) with
    ⟨addedMin, addedMax⟩
  refine ⟨globalRegister, _, ?_, capacity, addedMax, lookup, ?_⟩
  · simp only [MemoryTable.addGlobal, CombinedMemoryRegister.addGlobalReg, added,
      Option.map_some, if_pos (And.intro lower upper)]
  · exact
      { represents := represents
        room := capacity.trans_le realises.room
        addedWellFormed := addedWellFormed
        addedMin := addedMin.trans realises.addedMin
        addedMax := by
          simp only [capacity, addedMax]
          exact realises.addedMax
        elements := by
          simp only [elements, realises.elements, realises.addedMin, List.map_append,
            List.map_cons, List.map_nil, Nat.sub_zero] }

/-- A slot that is pending is removed from the table only. -/
theorem forget (realises : Realises pid layout pending table verbs) {slot : ℕ}
    (member : slot ∈ pending) :
    ∃ after, table.remove verbs (CombinedMemoryRegister.toGlobal slot) = some (after, verbs) ∧
      Exchanged table verbs after verbs ∧
      Realises pid (layout.forget slot) (SparseSet.eraseSwap pending slot) after verbs := by
  have live := realises.represents.layoutWellFormed.pendingLive slot member
  rw [← realises.represents.tableDealer] at live
  have present := (realises.contains_toGlobal
    (realises.represents.tableWellFormed.live_lt live)).mpr member
  have permutation := SparseSet.eraseSwap_perm member
  have nodup := realises.represents.layoutWellFormed.nodup
  have length : (SparseSet.eraseSwap pending slot).length + 1 = pending.length := by
    have := List.length_pos_of_mem member
    rw [permutation.length_eq, List.length_erase_of_mem member]
    omega
  rcases realises.represents.forget member
    (fun other => by rw [permutation.mem_iff, nodup.mem_erase_iff, and_comm])
    (permutation.nodup_iff.mpr (nodup.erase _)) length with
    ⟨globalRegister, removed, sameSlots, represents⟩
  rcases realises.addedWellFormed.erase present with ⟨addedWellFormed, elements⟩
  rcases table.added.range_erase (CombinedMemoryRegister.toGlobal slot) with ⟨addedMin, addedMax⟩
  have capacity : globalRegister.capacity = table.memreg.globalRegister.capacity :=
    MemoryRegister.capacity_of_slots sameSlots
  refine ⟨{ table with
    memreg := { table.memreg with globalRegister := globalRegister }
    added := table.added.erase (CombinedMemoryRegister.toGlobal slot) }, ?_, ?_, ?_⟩
  · simp only [MemoryTable.remove, present, if_true, CombinedMemoryRegister.removeReg_toGlobal,
      removed, Option.map_some]
  · have areas : ∀ other, globalRegister.lookup other =
        table.memreg.globalRegister.lookup other := fun other => by
      rw [MemoryRegister.lookup, sameSlots]
      rfl
    exact ⟨rfl, addedMax, rfl, capacity, fun other => by rw [areas], .refl verbs, rfl, rfl⟩
  · exact
      { represents := represents
        room := capacity.trans_le realises.room
        addedWellFormed := addedWellFormed
        addedMin := addedMin.trans realises.addedMin
        addedMax := by
          simp only [capacity, addedMax]
          exact realises.addedMax
        elements := by
          simp only [elements, realises.elements, realises.addedMin, Nat.sub_zero]
          exact SparseSet.eraseSwap_map
            (fun left right same => Nat.eq_of_mul_eq_mul_left (by decide) same) member }

/-- Any other slot is removed from the verbs layer as well. -/
theorem detach (realises : Realises pid layout pending table verbs) {slot : ℕ}
    (live : layout.dealer.Live slot) (synchronised : slot ∉ pending) :
    ∃ tableAfter verbsAfter,
      table.remove verbs (CombinedMemoryRegister.toGlobal slot) = some (tableAfter, verbsAfter) ∧
      Exchanged table verbs tableAfter verbsAfter ∧
      Realises pid (layout.detach slot) pending tableAfter verbsAfter := by
  have tableLive := live
  rw [← realises.represents.tableDealer] at tableLive
  have absent := mt (realises.contains_toGlobal
    (realises.represents.tableWellFormed.live_lt tableLive)).mp synchronised
  rcases realises.represents.detach live synchronised with
    ⟨tableRegister, verbsRegister, tableRemoved, verbsRemoved, tableSlots, verbsSlots, represents⟩
  rcases realises.represents.records _ live with ⟨memory, memoryFound, attached⟩
  have memorySlot := (attached synchronised).1
  have tableCapacity : tableRegister.capacity = table.memreg.globalRegister.capacity :=
    MemoryRegister.capacity_of_slots tableSlots
  have verbsCapacity : verbsRegister.capacity = verbs.memreg.globalRegister.capacity :=
    MemoryRegister.capacity_of_slots verbsSlots
  refine ⟨{ table with memreg := { table.memreg with globalRegister := tableRegister } },
    { verbs with memreg := { verbs.memreg with globalRegister := verbsRegister } }, ?_, ?_, ?_⟩
  · simp only [MemoryTable.remove, if_neg absent, CombinedMemoryRegister.lookup_toGlobal,
      memoryFound, IBVerbs.dereg, memorySlot, CombinedMemoryRegister.removeReg_toGlobal,
      verbsRemoved, tableRemoved, Option.map_some]
  · have areas : ∀ other, tableRegister.lookup other =
        table.memreg.globalRegister.lookup other := fun other => by
      rw [MemoryRegister.lookup, tableSlots]
      rfl
    exact ⟨rfl, rfl, rfl, tableCapacity, fun other => by rw [areas], rfl, rfl, verbsCapacity⟩
  · exact
      { represents := represents
        room := tableCapacity.trans_le (realises.room.trans_eq verbsCapacity.symm)
        addedWellFormed := realises.addedWellFormed
        addedMin := realises.addedMin
        addedMax := by
          simp only [tableCapacity]
          exact realises.addedMax
        elements := realises.elements }

end Realises

end MemoryTable

/-- All four registers have room for as many slots as were reserved. -/
structure Reserved {n : ℕ} (capacity : ℕ) (table : MemoryTable) (verbs : IBVerbs n) : Prop where
  tableCapacity : table.tableCapacity = capacity
  tableGlobal : table.memreg.globalRegister.capacity = capacity
  tableLocal : table.memreg.localRegister.capacity = capacity
  verbsGlobal : verbs.memreg.globalRegister.capacity = capacity
  verbsLocal : verbs.memreg.localRegister.capacity = capacity
  addedMax : table.added.max ≤ 2 * capacity + 1

/-- Within the limits of the device all registers can grow. -/
theorem Reserved.reserve {n : ℕ} {pid : Fin n} {layout : Layout n} {pending : List ℕ}
    {table : MemoryTable} {verbs : IBVerbs n} {capacity size : ℕ}
    (reserved : Reserved capacity table verbs)
    (realises : MemoryTable.Realises pid layout pending table verbs) (grows : capacity < size)
    (limits : size ≤ 2 ^ 31 - 1 ∧ size ≤ verbs.device.maxMr) :
    ∃ tableAfter verbsAfter, table.reserve .none verbs size = ((tableAfter, verbsAfter), none) ∧
      Reserved size tableAfter verbsAfter ∧
      MemoryTable.Realises pid layout pending tableAfter verbsAfter ∧
      tableAfter.memreg = ⟨(table.memreg.localRegister.reserve .none .null size).1,
        (table.memreg.globalRegister.reserve .none .null size).1⟩ ∧
      verbsAfter = { verbs with
        memreg := ⟨(verbs.memreg.localRegister.reserve .none (.null n) size).1,
          (verbs.memreg.globalRegister.reserve .none (.null n) size).1⟩ } := by
  have moreGlobal : table.memreg.globalRegister.capacity < size := by
    rw [reserved.tableGlobal]
    exact grows
  have moreLocal : table.memreg.localRegister.capacity < size := by
    rw [reserved.tableLocal]
    exact grows
  have moreVerbsGlobal : verbs.memreg.globalRegister.capacity < size := by
    rw [reserved.verbsGlobal]
    exact grows
  have moreVerbsLocal : verbs.memreg.localRegister.capacity < size := by
    rw [reserved.verbsLocal]
    exact grows
  have tableGlobal := (table.memreg.globalRegister.reserve_grows Memory.null moreGlobal).2
  have tableLocal := (table.memreg.localRegister.reserve_grows Memory.null moreLocal).2
  have verbsGlobal := (verbs.memreg.globalRegister.reserve_grows (MemorySlot.null n)
    moreVerbsGlobal).2
  have verbsLocal := (verbs.memreg.localRegister.reserve_grows (MemorySlot.null n)
    moreVerbsLocal).2
  let tableMemreg : CombinedMemoryRegister Memory :=
    ⟨(table.memreg.localRegister.reserve .none .null size).1,
      (table.memreg.globalRegister.reserve .none .null size).1⟩
  have range : tableMemreg.range = 2 * size + 1 := by
    simp only [tableMemreg, CombinedMemoryRegister.range, tableGlobal, tableLocal]
    omega
  have more : table.added.max ≤ tableMemreg.range := by
    have := reserved.addedMax
    omega
  rcases realises.addedWellFormed.resize more with ⟨addedWellFormed, elements, addedMin, addedMax⟩
  refine ⟨⟨tableMemreg, size, table.added.resize tableMemreg.range⟩, _, ?_,
    ⟨rfl, tableGlobal, tableLocal, verbsGlobal, verbsLocal, (addedMax.trans range).le⟩, ?_, rfl,
    rfl⟩
  · have fits : ¬size > 2 ^ 31 - 1 := Nat.not_lt.mpr limits.1
    have supported : ¬size > verbs.device.maxMr := Nat.not_lt.mpr limits.2
    simp only [MemoryTable.reserve, MemoryTable.Faults.none,
      table.memreg.reserve_grows Memory.null moreGlobal moreLocal, Bool.false_eq_true,
      IBVerbs.resizeMemreg, if_neg fits, if_neg supported,
      verbs.memreg.reserve_grows (MemorySlot.null n) moreVerbsGlobal moreVerbsLocal]
    rfl
  · exact
      { represents := realises.represents.reserve .none .none .null (.null n) size size
        room := (tableGlobal.trans verbsGlobal.symm).le
        addedWellFormed := addedWellFormed
        addedMin := addedMin.trans realises.addedMin
        addedMax := by
          have largest := addedMax.trans range
          simp only [tableMemreg, tableGlobal] at largest ⊢
          omega
        elements := elements.trans realises.elements }

/-- A process is consistent with what is shared and with the ledger of its caller. -/
structure Consistent {n : ℕ} (pid : Fin n) (device : Device n) (shared : Shared n)
    (ledger : Ledger) (node : Node n) : Prop where
  realises : MemoryTable.Realises pid shared.layout shared.pending node.table node.verbs
  keys : node.globals.map Registration.key = shared.keys
  globals : Holds shared.layout.dealer node.globals
  even : ∀ registration ∈ node.globals,
    registration.slot = CombinedMemoryRegister.toGlobal registration.number
  areas : ∀ registration ∈ node.globals, registration.live = true →
    (node.table.memreg.globalRegister.lookup registration.number).map
      (fun memory => (memory.addr, memory.size)) = some (registration.mem, registration.size)
  locals : LocalsMatch node.table.memreg.localRegister node.verbs.memreg.localRegister node.locals
  reserved : Reserved ledger.capacity node.table node.verbs
  ledgerLocals : ledger.locals = node.locals.map Registration.live
  ledgerGlobals : ledger.globals = node.globals.map Registration.live
  sameAnswers : node.verbs.device.regMr = device.regMr
  sameMaxMr : node.verbs.device.maxMr = device.maxMr

namespace Consistent

variable {n : ℕ} {pid : Fin n} {device : Device n} {shared : Shared n} {ledger : Ledger}
  {node : Node n}

theorem initial (pid : Fin n) (device : Device n) :
    Consistent pid device .initial .initial (.initial device) where
  realises := MemoryTable.realises_initial pid device
  keys := rfl
  globals := Holds.initial
  even := by simp [Node.initial]
  areas := by simp [Node.initial]
  locals := LocalsMatch.initial
  reserved := ⟨rfl, rfl, rfl, rfl, rfl, Nat.zero_le _⟩
  ledgerLocals := rfl
  ledgerGlobals := rfl
  sameAnswers := rfl
  sameMaxMr := rfl

theorem answers (consistent : Consistent pid device shared ledger node) :
    node.verbs.Answers ↔ ∀ k, (device.regMr k).isSome := by
  unfold IBVerbs.Answers
  rw [consistent.sameAnswers]

theorem length_liveNumbers (registrations : List Registration) :
    (liveNumbers registrations).length = (registrations.map Registration.live).count true := by
  induction registrations with
  | nil => rfl
  | cons registration rest ih =>
      cases isLive : registration.live <;> simp_all [liveNumbers]

/-- Local registers and registrations may change on their own. -/
theorem locally (consistent : Consistent pid device shared ledger node)
    {tableAfter : MemoryRegister Memory} {verbsAfter : MemoryRegister (MemorySlot n)}
    {verbs : IBVerbs n} {locals : List Registration}
    (sameVerbs : node.verbs.SameButMemory verbs)
    (tableCapacity : tableAfter.capacity = node.table.memreg.localRegister.capacity)
    (verbsCapacity : verbsAfter.capacity = node.verbs.memreg.localRegister.capacity)
    (matched : LocalsMatch tableAfter verbsAfter locals) :
    Consistent pid device shared { ledger with locals := locals.map Registration.live }
      { table := { node.table with
          memreg := { node.table.memreg with localRegister := tableAfter } }
        verbs := { verbs with
          memreg := { node.verbs.memreg with localRegister := verbsAfter } }
        locals := locals
        globals := node.globals } where
  realises := ⟨consistent.realises.represents, consistent.realises.room,
    consistent.realises.addedWellFormed, consistent.realises.addedMin,
    consistent.realises.addedMax, consistent.realises.elements⟩
  keys := consistent.keys
  globals := consistent.globals
  even := consistent.even
  areas := consistent.areas
  locals := matched
  reserved := ⟨consistent.reserved.tableCapacity, consistent.reserved.tableGlobal,
    tableCapacity.trans consistent.reserved.tableLocal, consistent.reserved.verbsGlobal,
    verbsCapacity.trans consistent.reserved.verbsLocal, consistent.reserved.addedMax⟩
  ledgerLocals := rfl
  ledgerGlobals := consistent.ledgerGlobals
  sameAnswers := by
    rw [← consistent.sameAnswers]
    exact congrArg (fun verbs => verbs.device.regMr) sameVerbs
  sameMaxMr := by
    rw [← consistent.sameMaxMr]
    exact congrArg (fun verbs => verbs.device.maxMr) sameVerbs

/-- A local registration is dealt the next local slot, unless the device refuses it. -/
theorem registerLocal (consistent : Consistent pid device shared ledger node) (mem size : ℕ)
    (room : ledger.locals.count true < ledger.capacity) :
    (node.step pid (.registerLocal mem size) = none ∧ ¬node.verbs.Answers) ∨
      ∃ after, node.step pid (.registerLocal mem size) = some after ∧
        Consistent pid device shared { ledger with locals := ledger.locals ++ [true] } after := by
  by_cases refused : size > 0 ∧ (node.verbs.openMr size).1.isNone
  · refine Or.inl ⟨?_, fun answers => answers.openMr size refused⟩
    simp only [Node.step, MemoryTable.addLocal, IBVerbs.regLocal, if_pos refused]
  · right
    have reserved := consistent.reserved
    have fits : node.table.memreg.localRegister.dealer.liveCount < ledger.capacity := by
      rw [consistent.locals.holds.count, length_liveNumbers, ← consistent.ledgerLocals]
      exact room
    rcases consistent.locals.register (by rw [reserved.tableLocal]; exact fits)
      (by rw [reserved.verbsLocal]; exact fits) mem size
      ⟨(node.verbs.openMr size).1, fun _ => .null⟩
      (fun slot => { slot with
        glob := Function.update slot.glob pid
          (IBVerbs.describe mem size (node.verbs.openMr size).1) })
      with ⟨tableAfter, verbsAfter, verbsAdded, tableAdded, tableCapacity, verbsCapacity, matched⟩
    have registered := consistent.locally (IBVerbs.sameButMemory_openMr node.verbs size)
      tableCapacity ((MemoryRegister.capacity_update _ _ _).trans verbsCapacity) matched
    rw [List.map_append, ← consistent.ledgerLocals] at registered
    refine ⟨_, ?_, registered⟩
    simp only [Node.step, MemoryTable.addLocal, IBVerbs.regLocal, if_neg refused,
      IBVerbs.memreg_openMr, CombinedMemoryRegister.addLocalReg, verbsAdded, Option.map_some,
      CombinedMemoryRegister.update_toLocal, tableAdded]

/-- The ledger knows which registrations are live. -/
theorem registration_of_live {registrations : List Registration} {k : ℕ}
    (live : (registrations.map Registration.live)[k]? = some true) :
    ∃ registration, registrations[k]? = some registration ∧ registration.live = true := by
  rw [List.getElem?_map] at live
  exact Option.map_eq_some_iff.mp live

theorem map_live_set (registrations : List Registration) (k : ℕ) (registration : Registration) :
    (registrations.set k registration.close).map Registration.live =
      (registrations.map Registration.live).set k false := by
  rw [List.map_set]
  rfl

/-- A live local registration can be removed. -/
theorem deregisterLocal (consistent : Consistent pid device shared ledger node) {k : ℕ}
    (live : ledger.locals[k]? = some true) :
    ∃ after, node.step pid (.deregisterLocal k) = some after ∧
      Consistent pid device shared { ledger with locals := ledger.locals.set k false } after := by
  rw [consistent.ledgerLocals] at live
  rcases registration_of_live live with ⟨registration, found, isLive⟩
  rcases consistent.locals.deregister found isLive with ⟨memory, tableAfter, verbsAfter,
    memoryFound, memorySlot, verbsRemoved, tableRemoved, tableCapacity, verbsCapacity, matched⟩
  have odd := consistent.locals.odd registration (List.mem_of_getElem? found)
  have removed := consistent.locally (.refl node.verbs) tableCapacity verbsCapacity matched
  rw [map_live_set, ← consistent.ledgerLocals] at removed
  refine ⟨_, ?_, removed⟩
  simp only [Node.step, Node.deregister, found, isLive, if_true, MemoryTable.remove, odd,
    if_neg (consistent.realises.not_contains_toLocal _), CombinedMemoryRegister.lookup_toLocal,
    memoryFound, IBVerbs.dereg, memorySlot, CombinedMemoryRegister.removeReg_toLocal,
    verbsRemoved, tableRemoved, Option.map_some]

/-- A reserve within the limits of the device succeeds. -/
theorem reserve (consistent : Consistent pid device shared ledger node) {size : ℕ}
    (limits : size ≤ 2 ^ 31 - 1 ∧ size ≤ device.maxMr) :
    ∃ after, node.step pid (.reserve size) = some after ∧
      Consistent pid device shared { ledger with capacity := max ledger.capacity size } after := by
  by_cases grows : ledger.capacity < size
  · rw [← consistent.sameMaxMr] at limits
    rcases consistent.reserved.reserve consistent.realises grows limits with
      ⟨table, verbs, succeeds, reserved, realises, memreg, same⟩
    refine ⟨{ node with table := table, verbs := verbs }, ?_, ?_⟩
    · simp only [Node.step, MemoryTable.capacity, consistent.reserved.tableCapacity, if_pos grows,
        succeeds]
    · rw [Nat.max_eq_right (Nat.le_of_lt grows)]
      exact
        { realises := realises
          keys := consistent.keys
          globals := consistent.globals
          even := consistent.even
          areas := fun registration member isLive => by
            have live := consistent.globals.live _ (Holds.mem_liveNumbers member isLive)
            rw [← consistent.realises.represents.tableDealer] at live
            simp only [memreg]
            rw [consistent.realises.represents.tableWellFormed.lookup_reserve _ _ _ live.1]
            exact consistent.areas registration member isLive
          locals := by
            simp only [memreg, same]
            exact consistent.locals.reserve .none .none .null (.null n) size size
          reserved := reserved
          ledgerLocals := consistent.ledgerLocals
          ledgerGlobals := consistent.ledgerGlobals
          sameAnswers := by
            rw [same]
            exact consistent.sameAnswers
          sameMaxMr := by
            rw [same]
            exact consistent.sameMaxMr }
  · refine ⟨node, ?_, ?_⟩
    · simp only [Node.step, MemoryTable.capacity, consistent.reserved.tableCapacity, if_neg grows]
    · rw [Nat.max_eq_left (Nat.le_of_not_lt grows)]
      exact consistent

/-- A global registration is dealt the slot that all processes expect. -/
theorem registerGlobal (consistent : Consistent pid device shared ledger node) (mem size : ℕ)
    (room : ledger.globals.count true < ledger.capacity) :
    ∃ after, node.step pid (.registerGlobal mem size) = some after ∧
      Consistent pid device (shared.advance .register)
        { ledger with globals := ledger.globals ++ [true] } after := by
  have reserved := consistent.reserved
  have fits : shared.layout.dealer.liveCount <
      node.table.memreg.globalRegister.capacity := by
    rw [consistent.globals.count, length_liveNumbers, ← consistent.ledgerGlobals,
      reserved.tableGlobal]
    exact room
  rcases consistent.realises.addGlobal mem size fits with
    ⟨globalRegister, added, isAdded, capacity, addedMax, lookup, realises⟩
  let registration : Registration :=
    ⟨CombinedMemoryRegister.toGlobal shared.layout.dealer.deal.1, mem, size, true⟩
  have number : registration.number = shared.layout.dealer.deal.1 :=
    CombinedMemoryRegister.fromGlobal_toGlobal _
  refine ⟨{ node with
    table := { node.table with
      memreg := { node.table.memreg with globalRegister := globalRegister }
      added := added }
    globals := node.globals ++ [registration] }, ?_, ?_⟩
  · simp only [Node.step, isAdded, Option.map_some]
    rfl
  · exact
      { realises := realises
        keys := by
          simp only [List.map_append, consistent.keys, Shared.advance]
          rfl
        globals := consistent.globals.deal rfl number
        even := fun other member => by
          rcases List.mem_append.mp member with old | new
          · exact consistent.even other old
          · rw [List.mem_singleton.mp new, number]
        areas := fun other member isLive => by
          simp only [lookup]
          rcases List.mem_append.mp member with old | new
          · have live := consistent.globals.live _ (Holds.mem_liveNumbers old isLive)
            have differs : shared.layout.dealer.deal.1 ≠ other.number := fun same =>
              shared.layout.dealer.not_live_deal (same ▸ live)
            rw [if_neg differs]
            exact consistent.areas other old isLive
          · rw [List.mem_singleton.mp new, number, if_pos rfl]
            rfl
        locals := consistent.locals
        reserved := ⟨reserved.tableCapacity, capacity.trans reserved.tableGlobal,
          reserved.tableLocal, reserved.verbsGlobal, reserved.verbsLocal,
          addedMax.trans_le reserved.addedMax⟩
        ledgerLocals := consistent.ledgerLocals
        ledgerGlobals := by simp [registration, consistent.ledgerGlobals]
        sameAnswers := consistent.sameAnswers
        sameMaxMr := consistent.sameMaxMr }

/-- As long as the areas stay where they are, only what is shared has to be realised again. -/
theorem exchange (consistent : Consistent pid device shared ledger node)
    {sharedAfter : Shared n} {tableAfter : MemoryTable} {verbsAfter : IBVerbs n}
    {globals : List Registration}
    (realises : MemoryTable.Realises pid sharedAfter.layout sharedAfter.pending tableAfter
      verbsAfter)
    (exchanged : Exchanged node.table node.verbs tableAfter verbsAfter)
    (keys : globals.map Registration.key = sharedAfter.keys)
    (holds : Holds sharedAfter.layout.dealer globals)
    (even : ∀ registration ∈ globals,
      registration.slot = CombinedMemoryRegister.toGlobal registration.number)
    (known : ∀ registration ∈ globals, registration.live = true → registration ∈ node.globals) :
    Consistent pid device sharedAfter { ledger with globals := globals.map Registration.live }
      { node with table := tableAfter, verbs := verbsAfter, globals := globals } where
  realises := realises
  keys := keys
  globals := holds
  even := even
  areas registration member isLive := by
    simp only [exchanged.areas]
    exact consistent.areas registration (known registration member isLive) isLive
  locals := by
    simp only [exchanged.sameLocalTable, exchanged.sameLocalVerbs]
    exact consistent.locals
  reserved := by
    have reserved := consistent.reserved
    refine ⟨exchanged.sameReserved.trans reserved.tableCapacity,
      exchanged.tableCapacity.trans reserved.tableGlobal, ?_,
      exchanged.verbsCapacity.trans reserved.verbsGlobal, ?_, ?_⟩
    · simp only [exchanged.sameLocalTable, reserved.tableLocal]
    · simp only [exchanged.sameLocalVerbs, reserved.verbsLocal]
    · simp only [exchanged.sameRange, reserved.addedMax]
  ledgerLocals := consistent.ledgerLocals
  ledgerGlobals := rfl
  sameAnswers := by
    rw [← consistent.sameAnswers]
    exact congrArg (fun verbs => verbs.device.regMr) exchanged.sameVerbs
  sameMaxMr := by
    rw [← consistent.sameMaxMr]
    exact congrArg (fun verbs => verbs.device.maxMr) exchanged.sameVerbs

/-- A registration is closed when its slot has been given back. -/
theorem close (consistent : Consistent pid device shared ledger node) {k : ℕ}
    {registration : Registration} (found : node.globals[k]? = some registration)
    (isLive : registration.live = true) {layout : Layout n} {pending : List ℕ}
    {tableAfter : MemoryTable} {verbsAfter : IBVerbs n}
    (dealer : layout.dealer = shared.layout.dealer.recycle registration.number)
    (realises : MemoryTable.Realises pid layout pending tableAfter verbsAfter)
    (exchanged : Exchanged node.table node.verbs tableAfter verbsAfter) :
    Consistent pid device ⟨layout, pending, shared.keys.set k (registration.slot, false)⟩
      { ledger with globals := ledger.globals.set k false }
      { node with
        table := tableAfter
        verbs := verbsAfter
        globals := node.globals.set k registration.close } := by
  rw [consistent.ledgerGlobals, ← map_live_set node.globals k registration]
  refine consistent.exchange realises exchanged ?_ ?_ ?_ ?_
  · rw [List.map_set, consistent.keys]
    rfl
  · rw [dealer]
    exact consistent.globals.recycle found isLive
  · intro other member
    rcases List.mem_or_eq_of_mem_set member with old | rfl
    · exact consistent.even other old
    · exact consistent.even registration (List.mem_of_getElem? found)
  · intro other member otherLive
    rcases List.mem_or_eq_of_mem_set member with old | rfl
    · exact old
    · cases otherLive

theorem exists_registration (consistent : Consistent pid device shared ledger node) {k : ℕ}
    (live : ledger.globals[k]? = some true) :
    ∃ registration, node.globals[k]? = some registration ∧ registration.live = true ∧
      shared.keys[k]? = some (registration.slot, true) ∧
      shared.layout.dealer.Live registration.number := by
  rw [consistent.ledgerGlobals] at live
  rcases registration_of_live live with ⟨registration, found, isLive⟩
  refine ⟨registration, found, isLive, ?_, consistent.globals.live _
    (Holds.mem_liveNumbers (List.mem_of_getElem? found) isLive)⟩
  rw [← consistent.keys, List.getElem?_map, found, ← isLive]
  rfl

/-- A global registration that was not synchronised yet is forgotten. -/
theorem forgetGlobal (consistent : Consistent pid device shared ledger node) {k : ℕ}
    (live : ledger.globals[k]? = some true) {slot : ℕ} {known : Bool}
    (key : shared.keys[k]? = some (slot, known)) (member : slot / 2 ∈ shared.pending) :
    ∃ after, node.step pid (.deregisterGlobal k) = some after ∧
      Consistent pid device (shared.advance (.deregister k))
        { ledger with globals := ledger.globals.set k false } after := by
  rcases consistent.exists_registration live with ⟨registration, found, isLive, itsKey, _⟩
  rw [key, Option.some.injEq, Prod.mk.injEq] at itsKey
  rcases itsKey with ⟨rfl, rfl⟩
  have even := consistent.even registration (List.mem_of_getElem? found)
  rcases consistent.realises.forget member with ⟨table, removed, exchanged, realises⟩
  have stepped : node.step pid (.deregisterGlobal k) =
      some { node with table := table, globals := node.globals.set k registration.close } := by
    change node.table.remove node.verbs (CombinedMemoryRegister.toGlobal registration.number) = _
      at removed
    simp only [Node.step, Node.deregister, found, isLive, if_true, even, removed, Option.map_some]
  have advanced : shared.advance (.deregister k) =
      { layout := shared.layout.forget registration.number
        pending := SparseSet.eraseSwap shared.pending registration.number
        keys := shared.keys.set k (registration.slot, false) } := by
    simp only [Shared.advance, key, if_pos member]
    rfl
  refine ⟨_, stepped, ?_⟩
  rw [advanced]
  exact consistent.close found isLive rfl realises exchanged

/-- A global registration that was synchronised leaves the verbs layer as well. -/
theorem detachGlobal (consistent : Consistent pid device shared ledger node) {k : ℕ}
    (live : ledger.globals[k]? = some true) {slot : ℕ} {known : Bool}
    (key : shared.keys[k]? = some (slot, known)) (synchronised : slot / 2 ∉ shared.pending) :
    ∃ after, node.step pid (.deregisterGlobal k) = some after ∧
      Consistent pid device (shared.advance (.deregister k))
        { ledger with globals := ledger.globals.set k false } after := by
  rcases consistent.exists_registration live with ⟨registration, found, isLive, itsKey, slotLive⟩
  rw [key, Option.some.injEq, Prod.mk.injEq] at itsKey
  rcases itsKey with ⟨rfl, rfl⟩
  have even := consistent.even registration (List.mem_of_getElem? found)
  rcases consistent.realises.detach slotLive synchronised with
    ⟨table, verbs, removed, exchanged, realises⟩
  have stepped : node.step pid (.deregisterGlobal k) =
      some { node with
        table := table
        verbs := verbs
        globals := node.globals.set k registration.close } := by
    simp only [Node.step, Node.deregister, found, isLive, if_true, even, removed, Option.map_some]
  have advanced : shared.advance (.deregister k) =
      { layout := shared.layout.detach registration.number
        pending := shared.pending
        keys := shared.keys.set k (registration.slot, false) } := by
    simp only [Shared.advance, key, if_neg synchronised]
    rfl
  refine ⟨_, stepped, ?_⟩
  rw [advanced]
  exact consistent.close found isLive rfl realises exchanged

/-- A live global registration can be removed, before or after it was synchronised. -/
theorem deregisterGlobal (consistent : Consistent pid device shared ledger node) {k : ℕ}
    (live : ledger.globals[k]? = some true) :
    ∃ after, node.step pid (.deregisterGlobal k) = some after ∧
      Consistent pid device (shared.advance (.deregister k))
        { ledger with globals := ledger.globals.set k false } after := by
  rcases consistent.exists_registration live with ⟨registration, _, _, key, _⟩
  by_cases member : registration.slot / 2 ∈ shared.pending
  · exact consistent.forgetGlobal live key member
  · exact consistent.detachGlobal live key member

end Consistent

end Talpf
