import Talpf.MemoryTable.Layout

/-!
# The exchange of memory areas

When the memory tables of all processes sync, the `k`-th pending slot of every
process is registered in one pair of collectives, whatever its slot number is
at each process.  This file runs these collectives in lockstep: if all
processes have equally many pending slots, either every one of them is attached
in the layout of its process to the areas that all processes announce, or some
device refuses an area and nothing goes on.  If the numbers of pending slots
differ, the calls do not match.
-/

namespace Talpf

open Spmd

namespace IBVerbs

variable {n : ℕ}

/-- The device registers every area. -/
def Answers (verbs : IBVerbs n) : Prop := ∀ k, (verbs.device.regMr k).isSome

/-- The two states differ in nothing but memory slots and their registrations. -/
def SameButMemory (before after : IBVerbs n) : Prop :=
  after = { before with
    memreg := after.memreg
    device := { before.device with regMrCalls := after.device.regMrCalls } }

namespace SameButMemory

variable {before middle after : IBVerbs n}

theorem refl (verbs : IBVerbs n) : SameButMemory verbs verbs := rfl

theorem trans (first : SameButMemory before middle) (second : SameButMemory middle after) :
    SameButMemory before after := by
  unfold SameButMemory at *
  rw [second, first]

theorem answers (same : SameButMemory before after) : after.Answers ↔ before.Answers := by
  rw [same]
  rfl

end SameButMemory

@[simp]
theorem memreg_openMr (verbs : IBVerbs n) (size : ℕ) :
    (verbs.openMr size).2.memreg = verbs.memreg := by
  unfold openMr
  split <;> rfl

/-- Only an area that is not empty gets a region. -/
theorem pos_of_openMr {verbs : IBVerbs n} {size : ℕ} (region : (verbs.openMr size).1.isSome) :
    0 < size := by
  by_contra empty
  rw [openMr, if_neg empty] at region
  cases region

theorem sameButMemory_openMr (verbs : IBVerbs n) (size : ℕ) :
    SameButMemory verbs (verbs.openMr size).2 := by
  unfold openMr
  split <;> rfl

theorem sameButMemory_regLocal {pid : Fin n} {verbs after : IBVerbs n} {addr size : ℕ}
    {result : Except Exn ℕ} (registered : regLocal pid verbs addr size = some (after, result)) :
    SameButMemory verbs after := by
  have opened := sameButMemory_openMr verbs size
  simp only [regLocal] at registered
  split at registered
  · cases registered
    exact opened
  · rcases Option.map_eq_some_iff.mp registered with ⟨added, _, same⟩
    cases same
    exact opened.trans rfl

theorem sameButMemory_resizeMemreg (globalFaults localFaults : ReserveFaults) (verbs : IBVerbs n)
    (size : ℕ) : SameButMemory verbs (verbs.resizeMemreg globalFaults localFaults size).1 := by
  simp only [resizeMemreg]
  split_ifs <;> exact rfl

theorem sameButMemory_dereg {verbs after : IBVerbs n} {id : ℕ}
    (removed : verbs.dereg id = some after) : SameButMemory verbs after := by
  rcases Option.map_eq_some_iff.mp removed with ⟨memreg, _, rfl⟩
  rfl

/-- An area can be registered unless the device refuses it. -/
theorem Answers.openMr {verbs : IBVerbs n} (answers : verbs.Answers) (size : ℕ) :
    ¬(size > 0 ∧ (verbs.openMr size).1.isNone) := by
  rintro ⟨positive, refused⟩
  have := answers verbs.device.regMrCalls
  simp [IBVerbs.openMr, ibvRegMr, positive] at refused
  simp [refused] at this

/-- The verbs layer once an area is registered and the areas of all processes are known. -/
def registered (verbs : IBVerbs n) (size : ℕ) (memreg : CombinedMemoryRegister (MemorySlot n))
    (id : ℕ) (areas : Fin n → MemoryRegistration) : IBVerbs n :=
  { (verbs.openMr size).2 with
    memreg := memreg.update id fun slot => { slot with glob := areas } }

variable {verbs : Fin n → IBVerbs n} {addr size : Fin n → ℕ}

/-- What the processes announce in a collective registration. -/
def announced (verbs : Fin n → IBVerbs n) (addr size : Fin n → ℕ) (q : Fin n) :
    MemoryRegistration :=
  describe (addr q) (size q) ((verbs q).openMr (size q)).1

/-- A collective registration for which all devices answer takes two rounds and tells every
process the areas of all. -/
theorem regGlobal_executes
    (answered : ∀ p, ¬(size p > 0 ∧ ((verbs p).openMr (size p)).1.isNone))
    {ids : Fin n → ℕ} {memregs : Fin n → CombinedMemoryRegister (MemorySlot n)}
    (added : ∀ p, (verbs p).memreg.addGlobalReg
      ⟨((verbs p).openMr (size p)).1, fun _ => .null⟩ = some (ids p, memregs p)) :
    Executes (fun p => (verbs p).regGlobal (addr p) (size p))
      [fun _ => .allreduceOr false,
        fun q => .allgatherRegistration (announced verbs addr size q)]
      (fun p => (registered (verbs p) (size p) (memregs p) (ids p)
        (announced verbs addr size), .ok (ids p))) := by
  have programs : ∀ p, (verbs p).regGlobal (addr p) (size p) =
      .call (.allreduceOr false) fun (failed : Bool) =>
        if failed then .done (((verbs p).openMr (size p)).2, .error .exception)
        else .call (.allgatherRegistration (announced verbs addr size p)) fun areas =>
          .done (registered (verbs p) (size p) (memregs p) (ids p) areas, .ok (ids p)) := by
    intro p
    simp only [regGlobal, if_neg (answered p), memreg_openMr, added p]
    rfl
  rw [funext programs]
  refine Comm.executes_allreduceOr ?_
  simp only [Bool.false_eq_true, exists_false, decide_false, if_false]
  exact Comm.executes_allgatherRegistration (.of_done _)

/-- A registration that its device answers begins with a reduction. -/
theorem regGlobal_bind_answered {α : Type} {verbs : IBVerbs n} {addr size : ℕ}
    (answered : ¬(size > 0 ∧ (verbs.openMr size).1.isNone))
    (next : IBVerbs n × Except Exn ℕ → Comm n α) :
    ∃ rest, (verbs.regGlobal addr size).bind next = .call (.allreduceOr false) rest := by
  simp only [regGlobal, if_neg answered, Program.call_bind]
  exact ⟨_, rfl⟩

/-- If some device refuses an area, then no process gets on with a slot. -/
theorem not_executes_regGlobal {α : Type}
    {p : Fin n} (refused : size p > 0 ∧ ((verbs p).openMr (size p)).1.isNone)
    {nexts : Fin n → IBVerbs n × Except Exn ℕ → Comm n α}
    (stops : ∀ q verbs exn, nexts q (verbs, .error exn) = .fault)
    {rounds : List (Fin n → Collective n)} {values : Fin n → α} :
    ¬Executes (fun q => ((verbs q).regGlobal (addr q) (size q)).bind (nexts q)) rounds values := by
  have atRefusal : ∀ q, (size q > 0 ∧ ((verbs q).openMr (size q)).1.isNone) →
      ((verbs q).regGlobal (addr q) (size q)).bind (nexts q) =
        .call (.allreduceAnd true) fun _ => .fault := by
    intro q refused
    simp only [regGlobal, if_pos refused, Program.call_bind, Program.done_bind, stops]
  by_cases all : ∀ q, size q > 0 ∧ ((verbs q).openMr (size q)).1.isNone
  · have : Nonempty (Fin n) := ⟨p⟩
    rw [funext fun q => atRefusal q (all q)]
    intro execution
    rcases Executes.call_iff.mp execution with ⟨_, _, _, rest⟩
    exact Executes.not_of_fault p rfl rest
  · rcases not_forall.mp all with ⟨q, answered⟩
    rcases regGlobal_bind_answered answered (nexts q) with ⟨rest, atAnswer⟩
    exact Comm.not_of_kinds (atRefusal p refused) atAnswer (by simp [Collective.kind])

end IBVerbs

/-- What the registration of pending slots leaves alone. -/
structure Exchanged {n : ℕ} (table : MemoryTable) (verbs : IBVerbs n) (tableAfter : MemoryTable)
    (verbsAfter : IBVerbs n) : Prop where
  sameReserved : tableAfter.tableCapacity = table.tableCapacity
  sameRange : tableAfter.added.max = table.added.max
  sameLocalTable : tableAfter.memreg.localRegister = table.memreg.localRegister
  tableCapacity : tableAfter.memreg.globalRegister.capacity =
    table.memreg.globalRegister.capacity
  areas : ∀ slot, (tableAfter.memreg.globalRegister.lookup slot).map
      (fun memory => (memory.addr, memory.size)) =
    (table.memreg.globalRegister.lookup slot).map fun memory => (memory.addr, memory.size)
  sameVerbs : verbs.SameButMemory verbsAfter
  sameLocalVerbs : verbsAfter.memreg.localRegister = verbs.memreg.localRegister
  verbsCapacity : verbsAfter.memreg.globalRegister.capacity =
    verbs.memreg.globalRegister.capacity

namespace Exchanged

variable {n : ℕ} {table tableMiddle tableAfter : MemoryTable}
  {verbs verbsMiddle verbsAfter : IBVerbs n}

theorem refl (table : MemoryTable) (verbs : IBVerbs n) : Exchanged table verbs table verbs :=
  ⟨rfl, rfl, rfl, rfl, fun _ => rfl, .refl verbs, rfl, rfl⟩

theorem trans (first : Exchanged table verbs tableMiddle verbsMiddle)
    (second : Exchanged tableMiddle verbsMiddle tableAfter verbsAfter) :
    Exchanged table verbs tableAfter verbsAfter where
  sameReserved := second.sameReserved.trans first.sameReserved
  sameRange := second.sameRange.trans first.sameRange
  sameLocalTable := second.sameLocalTable.trans first.sameLocalTable
  tableCapacity := second.tableCapacity.trans first.tableCapacity
  areas slot := (second.areas slot).trans (first.areas slot)
  sameVerbs := first.sameVerbs.trans second.sameVerbs
  sameLocalVerbs := second.sameLocalVerbs.trans first.sameLocalVerbs
  verbsCapacity := second.verbsCapacity.trans first.verbsCapacity

end Exchanged

namespace MemoryTable

variable {n : ℕ}

/-- Remember the verbs slot of a global slot. -/
def setSlot (table : MemoryTable) (i s : ℕ) : MemoryTable :=
  { table with memreg := table.memreg.update i fun memory => { memory with slot := s } }

theorem syncSlots_cons {table : MemoryTable} {slot : ℕ} {memory : Memory} (slots : List ℕ)
    (found : table.memreg.globalRegister.lookup slot = some memory) (verbs : IBVerbs n) :
    syncSlots (CombinedMemoryRegister.toGlobal slot :: slots) table verbs =
      (verbs.regGlobal memory.addr memory.size).bind fun (verbs, registered) =>
        match registered with
        | .error exn => .done ((table, verbs), some exn)
        | .ok s =>
            syncSlots slots (table.setSlot (CombinedMemoryRegister.toGlobal slot) s) verbs := by
  simp only [syncSlots, CombinedMemoryRegister.isLocalSlot_toGlobal,
    CombinedMemoryRegister.lookup_toGlobal, found]
  rfl

/-- The collectives that register the given number of areas. -/
def registrationKinds : ℕ → List CollectiveKind
  | 0 => []
  | count + 1 => .allreduceOr :: .allgatherRegistration :: registrationKinds count

/-- The collectives of a sync of the memory table. -/
def syncKinds (count : ℕ) : List CollectiveKind :=
  if count = 0 then [] else registrationKinds count ++ [.barrier]

/-- One pair of collectives attaches the first pending slot of every process. -/
theorem syncSlot_executes {layout : Fin n → Layout n} {slot : Fin n → ℕ}
    {pending : Fin n → List ℕ} {table : Fin n → MemoryTable} {verbs : Fin n → IBVerbs n}
    (represents : ∀ p, Represents p (layout p) (slot p :: pending p)
      (table p).memreg.globalRegister (verbs p).memreg.globalRegister)
    (room : ∀ p, (table p).memreg.globalRegister.capacity ≤
      (verbs p).memreg.globalRegister.capacity)
    {memory : Fin n → Memory}
    (found : ∀ p, (table p).memreg.globalRegister.lookup (slot p) = some (memory p))
    (answered : ∀ p, ¬((memory p).size > 0 ∧ ((verbs p).openMr (memory p).size).1.isNone)) :
    ∃ (rounds : List (Fin n → Collective n)) (ids : Fin n → ℕ) (verbsAfter : Fin n → IBVerbs n)
      (areas : Fin n → MemoryRegistration),
      (∀ p, Collective.kinds p rounds = [.allreduceOr, .allgatherRegistration]) ∧
      Executes (fun p => (verbs p).regGlobal (memory p).addr (memory p).size) rounds
        (fun p => (verbsAfter p, .ok (ids p))) ∧
      ∀ p, Represents p ((layout p).attach (slot p) areas) (pending p)
          ((table p).setSlot (CombinedMemoryRegister.toGlobal (slot p))
            (ids p)).memreg.globalRegister
          (verbsAfter p).memreg.globalRegister ∧
        Exchanged (table p) (verbs p)
          ((table p).setSlot (CombinedMemoryRegister.toGlobal (slot p)) (ids p))
          (verbsAfter p) := by
  have verbsRoom : ∀ p, (layout p).verbDealer.liveCount <
      (verbs p).memreg.globalRegister.capacity := by
    intro p
    have := (represents p).layoutWellFormed.count
    have := (represents p).tableWellFormed.liveCount_le
    have := room p
    rw [(represents p).tableDealer] at *
    simp only [List.length_cons] at *
    omega
  let areas := IBVerbs.announced verbs (fun q => (memory q).addr) (fun q => (memory q).size)
  have own : ∀ p, areas p = IBVerbs.describe (memory p).addr (memory p).size
      ((verbs p).openMr (memory p).size).1 := fun _ => rfl
  choose after added capacity attached using fun p =>
    (represents p).attach (found p) ((verbs p).openMr (memory p).size).1 (own p)
      (verbsRoom p) (fun _ => .null)
  have stored : ∀ p, (verbs p).memreg.addGlobalReg
      ⟨((verbs p).openMr (memory p).size).1, fun _ => .null⟩ =
        some (CombinedMemoryRegister.toGlobal (layout p).verbDealer.deal.1,
          { (verbs p).memreg with globalRegister := after p }) := by
    intro p
    simp only [CombinedMemoryRegister.addGlobalReg, added p, Option.map_some]
  refine ⟨_, fun p => CombinedMemoryRegister.toGlobal (layout p).verbDealer.deal.1, _, areas,
    fun _ => rfl, IBVerbs.regGlobal_executes answered stored, fun p => ⟨?_, ?_⟩⟩
  · simpa [setSlot, IBVerbs.registered] using attached p
  · exact
      { sameReserved := rfl
        sameRange := rfl
        sameLocalTable := by simp [setSlot]
        tableCapacity := by simp [setSlot]
        areas := fun other => by
          simp only [setSlot, CombinedMemoryRegister.update_toGlobal,
            MemoryRegister.lookup_update]
          split <;> simp [Function.comp_def]
        sameVerbs := by
          have := IBVerbs.sameButMemory_openMr (verbs p) (memory p).size
          unfold IBVerbs.SameButMemory at this ⊢
          simp only [IBVerbs.registered]
          rw [this]
        sameLocalVerbs := by simp [IBVerbs.registered]
        verbsCapacity := by simp [IBVerbs.registered, capacity p] }

/-- Equally many pending slots are either all attached or some device refuses an area. -/
theorem syncSlots_cases (count : ℕ) {layout : Fin n → Layout n} {pending : Fin n → List ℕ}
    {table : Fin n → MemoryTable} {verbs : Fin n → IBVerbs n}
    (lengths : ∀ p, (pending p).length = count)
    (represents : ∀ p, Represents p (layout p) (pending p)
      (table p).memreg.globalRegister (verbs p).memreg.globalRegister)
    (room : ∀ p, (table p).memreg.globalRegister.capacity ≤
      (verbs p).memreg.globalRegister.capacity) :
    (∃ (rounds : List (Fin n → Collective n)) (tableAfter : Fin n → MemoryTable)
        (verbsAfter : Fin n → IBVerbs n) (boards : List (Fin n → MemoryRegistration)),
      (∀ p, Collective.kinds p rounds = registrationKinds count) ∧
      Executes (fun p => syncSlots ((pending p).map CombinedMemoryRegister.toGlobal)
          (table p) (verbs p)) rounds (fun p => ((tableAfter p, verbsAfter p), none)) ∧
      ∀ p, Represents p ((layout p).attachAll (pending p) boards) []
          (tableAfter p).memreg.globalRegister (verbsAfter p).memreg.globalRegister ∧
        Exchanged (table p) (verbs p) (tableAfter p) (verbsAfter p) ∧
        (tableAfter p).added = (table p).added) ∨
    (¬∀ p, (verbs p).Answers) ∧
      ∀ (α : Type) (nexts : Fin n → (MemoryTable × IBVerbs n) × Option Exn → Comm n α)
        (rounds : List (Fin n → Collective n)) (values : Fin n → α),
        (∀ p reached exn, nexts p (reached, some exn) = .fault) →
        ¬Executes (fun p => (syncSlots ((pending p).map CombinedMemoryRegister.toGlobal)
          (table p) (verbs p)).bind (nexts p)) rounds values := by
  induction count generalizing layout pending table verbs with
  | zero =>
      have empty : ∀ p, pending p = [] := fun p => List.length_eq_zero_iff.mp (lengths p)
      simp only [empty] at represents
      refine Or.inl ⟨[], table, verbs, [], fun _ => rfl, ?_, fun p => ⟨?_, .refl _ _, rfl⟩⟩
      · simp only [empty, List.map_nil, syncSlots]
        exact .of_done _
      · simpa [empty, Layout.attachAll] using represents p
  | succ count ih =>
      choose slot rest split using fun p => List.exists_cons_of_length_eq_add_one (lengths p)
      simp only [split] at represents
      choose memory found _ using fun p => (represents p).records (slot p)
        ((represents p).layoutWellFormed.pendingLive _ List.mem_cons_self)
      have program : ∀ p, syncSlots ((pending p).map CombinedMemoryRegister.toGlobal)
          (table p) (verbs p) = _ := fun p =>
        (congrArg (fun slots => syncSlots (slots.map CombinedMemoryRegister.toGlobal) (table p)
          (verbs p)) (split p)).trans (syncSlots_cons _ (found p) _)
      simp only [program]
      by_cases answered : ∀ p, ¬((memory p).size > 0 ∧
          ((verbs p).openMr (memory p).size).1.isNone)
      · rcases syncSlot_executes represents room found answered with
          ⟨first, ids, verbsMiddle, areas, firstKinds, head, attached⟩
        have middleLengths : ∀ p, (rest p).length = count := fun p => by
          have := lengths p
          rw [split p] at this
          simpa using this
        have middleRoom : ∀ p, _ := fun p => (attached p).2.tableCapacity.trans_le
          ((room p).trans_eq (attached p).2.verbsCapacity.symm)
        rcases ih middleLengths (fun p => (attached p).1) middleRoom with
          ⟨second, tableAfter, verbsAfter, boards, secondKinds, tail, after⟩ | ⟨refused, stuck⟩
        · refine Or.inl ⟨first ++ second, tableAfter, verbsAfter, areas :: boards, fun p => ?_,
            head.bind tail, fun p => ⟨?_, (attached p).2.trans (after p).2.1, (after p).2.2⟩⟩
          · rw [Collective.kinds_append, firstKinds, secondKinds]
            rfl
          · rw [split p]
            exact (after p).1
        · refine Or.inr ⟨fun answers => refused fun p =>
            (attached p).2.sameVerbs.answers.mpr (answers p), ?_⟩
          intro α nexts rounds values stops execution
          rcases not_forall.mp refused with ⟨someone, _⟩
          have : Nonempty (Fin n) := ⟨someone⟩
          simp only [Program.bind_assoc] at execution
          rcases (Executes.bind_iff head).mp execution with ⟨later, _, execution⟩
          exact stuck α nexts later values stops execution
      · rcases not_forall.mp answered with ⟨p, refused⟩
        rw [not_not] at refused
        refine Or.inr ⟨fun answers => (answers p).openMr _ refused, ?_⟩
        intro α nexts rounds values stops
        simp only [Program.bind_assoc]
        exact IBVerbs.not_executes_regGlobal refused fun q verbs exn => by
          simp only [Program.done_bind, stops]

/-- A process with a pending slot whose area is not refused calls a reduction first. -/
theorem syncSlots_bind_pending {α : Type} {pid : Fin n} {layout : Layout n} {slot : ℕ}
    {pending : List ℕ} {table : MemoryTable} {verbs : IBVerbs n}
    (represents : Represents pid layout (slot :: pending) table.memreg.globalRegister
      verbs.memreg.globalRegister) (answers : verbs.Answers)
    (next : (MemoryTable × IBVerbs n) × Option Exn → Comm n α) :
    ∃ rest, (syncSlots ((slot :: pending).map CombinedMemoryRegister.toGlobal) table verbs).bind
      next = .call (.allreduceOr false) rest := by
  rcases represents.records slot (represents.layoutWellFormed.pendingLive _ List.mem_cons_self)
    with ⟨memory, found, _⟩
  rw [List.map_cons, syncSlots_cons _ found, Program.bind_assoc]
  exact IBVerbs.regGlobal_bind_answered (answers.openMr _) _

section Mismatch

variable {α : Type} {nexts : Fin n → (MemoryTable × IBVerbs n) × Option Exn → Comm n α}
  {layout : Fin n → Layout n} {pending : Fin n → List ℕ} {table : Fin n → MemoryTable}
  {verbs : Fin n → IBVerbs n} {rounds : List (Fin n → Collective n)} {values : Fin n → α}

/-- A process without pending slots does not take part in a registration. -/
theorem not_executes_exhausted
    (other : ∀ p table verbs, ∃ (op : Collective n) (next : op.Result → Comm n α),
      nexts p ((table, verbs), none) = .call op next ∧ op.kind ≠ .allreduceOr)
    (represents : ∀ p, Represents p (layout p) (pending p)
      (table p).memreg.globalRegister (verbs p).memreg.globalRegister)
    (answers : ∀ p, (verbs p).Answers)
    {p q : Fin n} (exhausted : pending p = []) (waiting : pending q ≠ []) :
    ¬Executes (fun p => (syncSlots ((pending p).map CombinedMemoryRegister.toGlobal)
      (table p) (verbs p)).bind (nexts p)) rounds values := by
  rcases other p (table p) (verbs p) with ⟨op, next, calls, kind⟩
  rcases List.exists_cons_of_ne_nil waiting with ⟨slot, rest, split⟩
  have represented := represents q
  rw [split] at represented
  rcases syncSlots_bind_pending represented (answers q) (nexts q) with ⟨_, reduces⟩
  rw [← split] at reduces
  have goesOn : (syncSlots ((pending p).map CombinedMemoryRegister.toGlobal)
      (table p) (verbs p)).bind (nexts p) = .call op next := by
    rw [exhausted]
    exact calls
  exact Comm.not_of_kinds goesOn reduces kind

/-- Different numbers of pending slots do not execute, if what follows is no reduction. -/
theorem not_executes_syncSlots
    (other : ∀ p table verbs, ∃ (op : Collective n) (next : op.Result → Comm n α),
      nexts p ((table, verbs), none) = .call op next ∧ op.kind ≠ .allreduceOr)
    (count : ℕ)
    (represents : ∀ p, Represents p (layout p) (pending p)
      (table p).memreg.globalRegister (verbs p).memreg.globalRegister)
    (room : ∀ p, (table p).memreg.globalRegister.capacity ≤
      (verbs p).memreg.globalRegister.capacity)
    (answers : ∀ p, (verbs p).Answers)
    {p q : Fin n} (fewer : (pending p).length = count) (differ : (pending q).length ≠ count) :
    ¬Executes (fun p => (syncSlots ((pending p).map CombinedMemoryRegister.toGlobal)
      (table p) (verbs p)).bind (nexts p)) rounds values := by
  induction count generalizing layout pending table verbs rounds with
  | zero =>
      exact not_executes_exhausted other represents answers (List.length_eq_zero_iff.mp fewer)
        (List.ne_nil_of_length_pos (Nat.pos_of_ne_zero differ))
  | succ count ih =>
      by_cases all : ∀ r, pending r ≠ []
      · choose slot rest split using fun r => List.exists_cons_of_ne_nil (all r)
        simp only [split] at represents
        choose memory found _ using fun r => (represents r).records (slot r)
          ((represents r).layoutWellFormed.pendingLive _ List.mem_cons_self)
        rcases syncSlot_executes represents room found
          (fun r => (answers r).openMr _) with ⟨_, _, _, _, _, head, attached⟩
        have program : ∀ r, (syncSlots ((pending r).map CombinedMemoryRegister.toGlobal)
            (table r) (verbs r)).bind (nexts r) = _ := fun r => by
          rw [split r, List.map_cons, syncSlots_cons _ (found r), Program.bind_assoc]
        have : Nonempty (Fin n) := ⟨p⟩
        intro execution
        rw [funext program] at execution
        rcases (Executes.bind_iff head).mp execution with ⟨later, _, execution⟩
        simp only [split, List.length_cons, Nat.add_right_cancel_iff] at fewer differ
        exact ih (fun r => (attached r).1)
          (fun r => (attached r).2.tableCapacity.trans_le
            ((room r).trans_eq (attached r).2.verbsCapacity.symm))
          (fun r => (attached r).2.sameVerbs.answers.mpr (answers r)) fewer
          (fun same => differ (by rw [same])) execution
      · rcases not_forall.mp all with ⟨r, exhausted⟩
        have waiting : pending p ≠ [] := List.ne_nil_of_length_pos (by omega)
        exact not_executes_exhausted other represents answers (not_not.mp exhausted) waiting

end Mismatch

/-- The memory table and the verbs layer of process `pid` realise a layout whose pending slots are
visited in the given order. -/
structure Realises (pid : Fin n) (layout : Layout n) (pending : List ℕ) (table : MemoryTable)
    (verbs : IBVerbs n) : Prop where
  represents : Represents pid layout pending table.memreg.globalRegister
    verbs.memreg.globalRegister
  room : table.memreg.globalRegister.capacity ≤ verbs.memreg.globalRegister.capacity
  addedWellFormed : table.added.WellFormed
  addedMin : table.added.min = 0
  addedMax : 2 * table.memreg.globalRegister.capacity ≤ table.added.max
  elements : table.added.elements = pending.map CombinedMemoryRegister.toGlobal

theorem realises_initial (pid : Fin n) (device : Device n) :
    Realises pid .initial [] initial (IBVerbs.initial device) where
  represents := Represents.initial pid
  room := Nat.le_refl _
  addedWellFormed := SparseSet.wellFormed_reset (Nat.le_refl 0)
  addedMin := rfl
  addedMax := Nat.le_refl _
  elements := rfl

namespace Realises

variable {pid : Fin n} {layout : Layout n} {pending : List ℕ} {table : MemoryTable}
  {verbs : IBVerbs n}

theorem empty_iff (realises : Realises pid layout pending table verbs) :
    table.added.empty = true ↔ pending = [] := by
  rw [realises.addedWellFormed.empty_iff, realises.elements, List.map_eq_nil_iff]

theorem contains_toGlobal (realises : Realises pid layout pending table verbs) {slot : ℕ}
    (bound : slot < table.memreg.globalRegister.capacity) :
    table.added.contains (CombinedMemoryRegister.toGlobal slot) = true ↔ slot ∈ pending := by
  have max := realises.addedMax
  have min := realises.addedMin
  rw [realises.addedWellFormed.contains_iff (by omega)
    (by simp only [CombinedMemoryRegister.toGlobal]; omega), realises.elements, min, Nat.sub_zero]
  simp [CombinedMemoryRegister.toGlobal]

theorem not_contains_toLocal (realises : Realises pid layout pending table verbs) (slot : ℕ) :
    ¬table.added.contains (CombinedMemoryRegister.toLocal slot) = true := by
  intro present
  have range := present
  simp only [SparseSet.contains, Bool.and_eq_true, decide_eq_true_eq] at range
  have member := (realises.addedWellFormed.contains_iff range.1.1 range.1.2).mp present
  rw [realises.elements, realises.addedMin] at member
  rcases List.mem_map.mp member with ⟨global, _, same⟩
  simp only [CombinedMemoryRegister.toGlobal, CombinedMemoryRegister.toLocal] at same
  omega

/-- `sync` registers the pending slots and leaves with a barrier unless there are none. -/
theorem sync_eq (realises : Realises pid layout pending table verbs) :
    table.sync verbs =
      (syncSlots (pending.map CombinedMemoryRegister.toGlobal) table verbs).bind
        fun ((table, verbs), thrown) =>
          match thrown with
          | some exn => .done ((table, verbs), some exn)
          | none =>
              if pending = [] then .done ((table, verbs), none)
              else .call .barrier fun _ =>
                .done (({ table with added := table.added.clear }, verbs), none) := by
  unfold MemoryTable.sync
  by_cases nothing : pending = []
  · rw [if_pos (realises.empty_iff.mpr nothing), nothing]
    rfl
  · rw [if_neg fun isEmpty => nothing (realises.empty_iff.mp isEmpty), realises.elements]
    congr 1
    funext outcome
    rcases outcome with ⟨⟨tableAfter, verbsAfter⟩, _ | exn⟩
    · exact (if_neg nothing).symm
    · rfl

/-- What the registers represent after a sync, the table realises. -/
theorem synced {layoutAfter : Layout n} {tableAfter : MemoryTable} {verbsAfter : IBVerbs n}
    (realises : Realises pid layout pending table verbs)
    (represents : Represents pid layoutAfter [] tableAfter.memreg.globalRegister
      verbsAfter.memreg.globalRegister)
    (exchanged : Exchanged table verbs tableAfter verbsAfter)
    {added : SparseSet} (wellFormed : added.WellFormed) (range : added.min = table.added.min ∧
      added.max = table.added.max) (elements : added.elements = []) :
    Realises pid layoutAfter [] { tableAfter with added := added } verbsAfter where
  represents := represents
  room := exchanged.tableCapacity.trans_le
    (realises.room.trans_eq exchanged.verbsCapacity.symm)
  addedWellFormed := wellFormed
  addedMin := range.1.trans realises.addedMin
  addedMax := by
    simp only [exchanged.tableCapacity, range.2]
    exact realises.addedMax
  elements := elements

end Realises

section Sync

variable {layout : Fin n → Layout n} {pending : Fin n → List ℕ} {table : Fin n → MemoryTable}
  {verbs : Fin n → IBVerbs n}

/-- With equally many pending slots at all processes, either all processes sync together, in a
number of rounds that depends on nothing else, or some device refuses an area. -/
theorem sync_cases {count : ℕ} (lengths : ∀ p, (pending p).length = count)
    (realises : ∀ p, Realises p (layout p) (pending p) (table p) (verbs p)) :
    (∃ (rounds : List (Fin n → Collective n)) (tableAfter : Fin n → MemoryTable)
        (verbsAfter : Fin n → IBVerbs n) (boards : List (Fin n → MemoryRegistration)),
      (∀ p, Collective.kinds p rounds = syncKinds count) ∧
      Executes (fun p => (table p).sync (verbs p)) rounds
        (fun p => ((tableAfter p, verbsAfter p), none)) ∧
      ∀ p, Realises p ((layout p).attachAll (pending p) boards) [] (tableAfter p)
          (verbsAfter p) ∧
        Exchanged (table p) (verbs p) (tableAfter p) (verbsAfter p)) ∨
    (¬∀ p, (verbs p).Answers) ∧
      ∀ (α : Type) (nexts : Fin n → (MemoryTable × IBVerbs n) × Option Exn → Comm n α)
        (rounds : List (Fin n → Collective n)) (values : Fin n → α),
        (∀ p reached exn, nexts p (reached, some exn) = .fault) →
        ¬Executes (fun p => ((table p).sync (verbs p)).bind (nexts p)) rounds values := by
  simp only [fun p => (realises p).sync_eq, Program.bind_assoc]
  rcases syncSlots_cases count lengths (fun p => (realises p).represents)
    (fun p => (realises p).room) with
    ⟨rounds, tableAfter, verbsAfter, boards, roundsKinds, head, after⟩ | ⟨refused, stuck⟩
  · left
    by_cases nothing : count = 0
    · have empty : ∀ p, pending p = [] := fun p =>
        List.length_eq_zero_iff.mp ((lengths p).trans nothing)
      refine ⟨rounds ++ [], tableAfter, verbsAfter, boards,
        fun p => by simp [nothing, roundsKinds, syncKinds, registrationKinds], head.bind ?_,
        fun p => ⟨?_, (after p).2.1⟩⟩
      · simp only [empty, if_true]
        exact .of_done _
      · refine (realises p).synced (after p).1 (after p).2.1 ?_ ?_ ?_ <;> rw [(after p).2.2]
        · exact (realises p).addedWellFormed
        · exact ⟨rfl, rfl⟩
        · rw [(realises p).elements, empty p, List.map_nil]
    · have nonempty : ∀ p, pending p ≠ [] := fun p isEmpty =>
        nothing (by rw [← lengths p, isEmpty, List.length_nil])
      refine ⟨rounds ++ [fun _ => .barrier], fun p =>
        { tableAfter p with added := (tableAfter p).added.clear }, verbsAfter, boards,
        fun p => by simp [nothing, roundsKinds, syncKinds, Collective.kind], head.bind ?_,
        fun p => ⟨?_, ?_⟩⟩
      · simp only [nonempty, if_false]
        exact Comm.executes_barrier (.of_done _)
      · refine (realises p).synced (after p).1 (after p).2.1 ?_ ?_ ?_ <;> rw [(after p).2.2]
        · exact (realises p).addedWellFormed.clear
        · exact ⟨rfl, rfl⟩
        · exact SparseSet.elements_clear _
      · exact ⟨(after p).2.1.sameReserved, (after p).2.1.sameRange,
          (after p).2.1.sameLocalTable, (after p).2.1.tableCapacity, (after p).2.1.areas,
          (after p).2.1.sameVerbs, (after p).2.1.sameLocalVerbs, (after p).2.1.verbsCapacity⟩
  · refine Or.inr ⟨refused, fun α nexts rounds values stops => ?_⟩
    exact stuck α _ rounds values fun p reached exn => by simp only [Program.done_bind, stops]

/-- Different numbers of pending slots do not execute, if what follows is no reduction. -/
theorem not_executes_sync {α : Type}
    {nexts : Fin n → (MemoryTable × IBVerbs n) × Option Exn → Comm n α}
    (other : ∀ p table verbs, ∃ (op : Collective n) (next : op.Result → Comm n α),
      nexts p ((table, verbs), none) = .call op next ∧ op.kind ≠ .allreduceOr)
    (realises : ∀ p, Realises p (layout p) (pending p) (table p) (verbs p))
    (answers : ∀ p, (verbs p).Answers) {p q : Fin n}
    (differ : (pending q).length ≠ (pending p).length)
    {rounds : List (Fin n → Collective n)} {values : Fin n → α} :
    ¬Executes (fun p => ((table p).sync (verbs p)).bind (nexts p)) rounds values := by
  simp only [fun p => (realises p).sync_eq, Program.bind_assoc]
  refine not_executes_syncSlots (fun r table verbs => ?_) (pending p).length
    (fun r => (realises r).represents) (fun r => (realises r).room) answers rfl differ
  by_cases nothing : pending r = []
  · simp only [nothing, if_true, Program.done_bind]
    exact other r table verbs
  · simp only [nothing, if_false, Program.call_bind]
    exact ⟨.barrier, _, rfl, by simp [Collective.kind]⟩

end Sync

end MemoryTable

end Talpf
