import Talpf.MemoryRegister.Records
import Talpf.MemoryTable.Refusals
import Talpf.Library.Transition

/-!
# Registrations of all processes

Local slots are registered and dropped by one process, global ones by all of
them together.  In every state that such calls lead to, a process knows its own
areas under every slot in use, all processes know the same areas under a global
slot, and nothing is known of the other processes under a local one.
-/

namespace Talpf

open Spmd

namespace IBVerbs

variable {n : ℕ}

/-- The calls that change the registrations, and all others. -/
inductive Call (n : ℕ) where
  | regLocal (pid : Fin n) (addr size : ℕ)
  | regGlobal (addr size : Fin n → ℕ)
  | deregLocal (pid : Fin n) (id : ℕ)
  /-- All processes drop the same global slot. -/
  | deregGlobal (id : ℕ)
  | resizeMemreg (pid : Fin n) (globalFaults localFaults : ReserveFaults) (size : ℕ)
  /-- A function that does not touch the register. -/
  | other (pid : Fin n)

/-- One call, which changes the states of the processes. -/
def Step (before : Fin n → IBVerbs n) : Call n → (Fin n → IBVerbs n) → Prop
  | .regLocal pid addr size, after => ∃ verbs result,
      regLocal pid (before pid) addr size = some (verbs, result) ∧
        after = Function.update before pid verbs
  | .regGlobal addr size, after => ∃ rounds results,
      Executes (regAll before addr size) rounds results ∧ after = fun p => (results p).1
  | .deregLocal pid id, after => ∃ verbs, (before pid).dereg id = some verbs ∧
      after = Function.update before pid verbs
  | .deregGlobal id, after => ∀ p, (before p).dereg id = some (after p)
  | .resizeMemreg pid globalFaults localFaults size, after =>
      after = Function.update before pid
        ((before pid).resizeMemreg globalFaults localFaults size).1
  | .other pid, after => ∃ verbs : IBVerbs n, verbs.memreg = (before pid).memreg ∧
      after = Function.update before pid verbs

/-- Only slots in use are dropped, a local one by its process and a global one by all. -/
def Permitted (state : Fin n → IBVerbs n) : Call n → Prop
  | .deregLocal pid id => CombinedMemoryRegister.isLocalSlot id = true ∧
      ((state pid).memreg.record id).isSome
  | .deregGlobal id => CombinedMemoryRegister.isLocalSlot id = false ∧
      ∀ p, ((state p).memreg.record id).isSome
  | _ => True

abbrev Reachable (devices : Fin n → Device n) (state : Fin n → IBVerbs n) : Prop :=
  Transition.Reachable Step Permitted (fun p => initial (devices p)) state

theorem Reachable.call {devices : Fin n → Device n} {state after : Fin n → IBVerbs n}
    (run : Reachable devices state) (call : Call n) (permitted : Permitted state call)
    (taken : Step state call after) : Reachable devices after := run.tail permitted taken

/-- A process knows its own area under a slot, and a region is never empty. -/
def KnowsOwn (pid : Fin n) (entry : MemorySlot n) : Prop :=
  ∃ addr size, (entry.mr.isSome → 0 < size) ∧ entry.glob pid = describe addr size entry.mr

/-- What the processes know of each other's areas. -/
structure Consistent (state : Fin n → IBVerbs n) : Prop where
  wellFormed : ∀ p, (state p).memreg.WellFormed
  sameDealer : ∀ p q, (state p).memreg.globalRegister.dealer =
    (state q).memreg.globalRegister.dealer
  own : ∀ p slot entry, (state p).memreg.record slot = some entry → KnowsOwn p entry
  unshared : ∀ p slot entry, CombinedMemoryRegister.isLocalSlot slot = true →
    (state p).memreg.record slot = some entry → ∀ q, q ≠ p → entry.glob q = .null
  shared : ∀ p q slot left right, CombinedMemoryRegister.isLocalSlot slot = false →
    (state p).memreg.record slot = some left → (state q).memreg.record slot = some right →
      left.glob = right.glob

namespace Consistent

theorem initial (devices : Fin n → Device n) :
    Consistent fun p => IBVerbs.initial (devices p) := by
  have none : ∀ p slot, (IBVerbs.initial (devices p)).memreg.record slot = none := by
    intro p slot
    show CombinedMemoryRegister.record .empty slot = none
    rw [CombinedMemoryRegister.record]
    split <;> exact MemoryRegister.record_empty _
  refine ⟨fun _ => CombinedMemoryRegister.wellFormed_empty, fun _ _ => rfl, ?_, ?_, ?_⟩
  · intro p slot entry found
    rw [none] at found
    cases found
  · intro p slot entry _ found
    rw [none] at found
    cases found
  · intro p q slot left right _ found
    rw [none] at found
    cases found

variable {state : Fin n → IBVerbs n}

/-- Nothing changes as long as the records and the dealers of the global slots do not. -/
theorem of_same (consistent : Consistent state) {after : Fin n → IBVerbs n}
    (wellFormed : ∀ p, (after p).memreg.WellFormed)
    (sameRecord : ∀ p, (after p).memreg.record = (state p).memreg.record)
    (sameDealer : ∀ p, (after p).memreg.globalRegister.dealer =
      (state p).memreg.globalRegister.dealer) : Consistent after where
  wellFormed := wellFormed
  sameDealer p q := by
    rw [sameDealer, sameDealer]
    exact consistent.sameDealer p q
  own p slot entry found := consistent.own p slot entry (by rw [← sameRecord]; exact found)
  unshared p slot entry isLocal found :=
    consistent.unshared p slot entry isLocal (by rw [← sameRecord]; exact found)
  shared p q slot left right isGlobal found foundToo :=
    consistent.shared p q slot left right isGlobal (by rw [← sameRecord]; exact found)
      (by rw [← sameRecord]; exact foundToo)

/-- One process goes on with the same records. -/
theorem keep (consistent : Consistent state) {pid : Fin n} {verbs : IBVerbs n}
    (wellFormed : verbs.memreg.WellFormed)
    (sameRecord : verbs.memreg.record = (state pid).memreg.record)
    (sameDealer : verbs.memreg.globalRegister.dealer =
      (state pid).memreg.globalRegister.dealer) :
    Consistent (Function.update state pid verbs) := by
  apply consistent.of_same
  · exact (Function.forall_update_iff _ fun _ (verbs : IBVerbs n) => verbs.memreg.WellFormed).mpr
      ⟨wellFormed, fun p _ => consistent.wellFormed p⟩
  · exact (Function.forall_update_iff _ fun p (verbs : IBVerbs n) =>
      verbs.memreg.record = (state p).memreg.record).mpr ⟨sameRecord, fun _ _ => rfl⟩
  · exact (Function.forall_update_iff _ fun p (verbs : IBVerbs n) =>
      verbs.memreg.globalRegister.dealer = (state p).memreg.globalRegister.dealer).mpr
      ⟨sameDealer, fun _ _ => rfl⟩

/-- One process changes the entry of a local slot. -/
theorem changeLocal (consistent : Consistent state) {pid : Fin n} {verbs : IBVerbs n} {id : ℕ}
    {value : Option (MemorySlot n)} (wellFormed : verbs.memreg.WellFormed)
    (isLocal : CombinedMemoryRegister.isLocalSlot id = true)
    (dealer : verbs.memreg.globalRegister.dealer = (state pid).memreg.globalRegister.dealer)
    (changes : verbs.memreg.record = Function.update (state pid).memreg.record id value)
    (ownValue : ∀ entry, value = some entry →
      KnowsOwn pid entry ∧ ∀ q, q ≠ pid → entry.glob q = .null) :
    Consistent (Function.update state pid verbs) := by
  -- every entry that is found now is the new one or an old one
  have sources : ∀ p slot entry, ((Function.update state pid verbs) p).memreg.record slot =
      some entry → (p = pid ∧ slot = id ∧ value = some entry) ∨
        (state p).memreg.record slot = some entry := by
    intro p slot entry found
    by_cases atPid : p = pid
    · rw [atPid, Function.update_self, changes, Function.update_apply] at found
      split at found
      next same => exact Or.inl ⟨atPid, same, found⟩
      next => exact Or.inr (atPid ▸ found)
    · rw [Function.update_of_ne atPid] at found
      exact Or.inr found
  refine ⟨?_, ?_, ?_, ?_, ?_⟩
  · intro p
    rw [Function.update_apply]
    split
    next => exact wellFormed
    next => exact consistent.wellFormed p
  · have same : ∀ p, ((Function.update state pid verbs) p).memreg.globalRegister.dealer =
        (state p).memreg.globalRegister.dealer := by
      intro p
      rw [Function.update_apply]
      split
      next atPid => rw [dealer, atPid]
      next => rfl
    intro p q
    rw [same, same]
    exact consistent.sameDealer p q
  · intro p slot entry found
    rcases sources p slot entry found with ⟨rfl, _, isValue⟩ | before
    · exact (ownValue entry isValue).1
    · exact consistent.own p slot entry before
  · intro p slot entry itsLocal found
    rcases sources p slot entry found with ⟨rfl, _, isValue⟩ | before
    · exact (ownValue entry isValue).2
    · exact consistent.unshared p slot entry itsLocal before
  · intro p q slot left right isGlobal found foundToo
    have differs : slot ≠ id := by
      rintro rfl
      rw [isLocal] at isGlobal
      cases isGlobal
    rcases sources p slot left found with ⟨_, same, _⟩ | before
    · exact absurd same differs
    rcases sources q slot right foundToo with ⟨_, same, _⟩ | beforeToo
    · exact absurd same differs
    exact consistent.shared p q slot left right isGlobal before beforeToo

/-- All processes change the entry of a global slot. -/
theorem changeGlobal (consistent : Consistent state) (dealer : SlotDealer → SlotDealer)
    (values : Fin n → Option (MemorySlot n)) {after : Fin n → IBVerbs n} {id : ℕ}
    (wellFormed : ∀ p, (after p).memreg.WellFormed)
    (isGlobal : CombinedMemoryRegister.isLocalSlot id = false)
    (dealers : ∀ p, (after p).memreg.globalRegister.dealer =
      dealer (state p).memreg.globalRegister.dealer)
    (changes : ∀ p, (after p).memreg.record =
      Function.update (state p).memreg.record id (values p))
    (ownValue : ∀ p entry, values p = some entry → KnowsOwn p entry)
    (sameValue : ∀ p q left right, values p = some left → values q = some right →
      left.glob = right.glob) : Consistent after := by
  refine ⟨wellFormed, ?_, ?_, ?_, ?_⟩
  · intro p q
    rw [dealers, dealers, consistent.sameDealer p q]
  · intro p slot entry found
    rw [changes, Function.update_apply] at found
    split at found
    next => exact ownValue p entry found
    next => exact consistent.own p slot entry found
  · intro p slot entry isLocal found
    have differs : slot ≠ id := by
      rintro rfl
      rw [isGlobal] at isLocal
      cases isLocal
    rw [changes, Function.update_of_ne differs] at found
    exact consistent.unshared p slot entry isLocal found
  · intro p q slot left right itsGlobal found foundToo
    rw [changes, Function.update_apply] at found foundToo
    split at found
    next same =>
      rw [if_pos same] at foundToo
      exact sameValue p q left right found foundToo
    next differs =>
      rw [if_neg differs] at foundToo
      exact consistent.shared p q slot left right itsGlobal found foundToo

end Consistent

/-- A process whose register is full faults after the vote. -/
theorem regGlobal_full {verbs : IBVerbs n} {addr size : ℕ} (accepts : ¬verbs.Refuses size)
    (full : verbs.memreg.addGlobalReg ⟨(verbs.openMr size).1, fun _ => .null⟩ = none) :
    verbs.regGlobal addr size = .call (.allreduceOr false) fun (failed : Bool) =>
      if failed then .done ((verbs.openMr size).2, .error .exception) else .fault := by
  have opened := memreg_openMr verbs size
  rw [Refuses] at accepts
  rw [← opened] at full
  rw [regGlobal]
  generalize verbs.openMr size = answer at accepts full
  refine (if_neg accepts).trans ?_
  rw [full]

/-- A global registration either leaves all registers alone or stores at every process what all of
them have announced. -/
theorem regAll_cases {verbs : Fin n → IBVerbs n} {addr size : Fin n → ℕ}
    {rounds : List (Fin n → Collective n)} {results : Fin n → IBVerbs n × Except Exn ℕ}
    (execution : Executes (regAll verbs addr size) rounds results) :
    (∀ p, (results p).1.memreg = (verbs p).memreg) ∨
      ∃ (ids : Fin n → ℕ) (memregs : Fin n → CombinedMemoryRegister (MemorySlot n)), ∀ p,
        (verbs p).memreg.addGlobalReg ⟨((verbs p).openMr (size p)).1, fun _ => .null⟩ =
            some (ids p, memregs p) ∧
          (results p).1.memreg = (memregs p).update (ids p) fun slot =>
            { slot with glob := announced verbs addr size } := by
  rcases Nat.eq_zero_or_pos n with rfl | positive
  · exact Or.inl fun p => p.elim0
  have : Nonempty (Fin n) := ⟨⟨0, positive⟩⟩
  by_cases refuses : ∀ p, (verbs p).Refuses (size p)
  · left
    intro p
    rw [(execution.unique (regAll_refused refuses)).2]
    exact memreg_openMr (verbs p) (size p)
  by_cases accepts : ∀ p, ¬(verbs p).Refuses (size p)
  · right
    have programs : ∀ p, ∃ rest : Bool → Comm n (IBVerbs n × Except Exn ℕ),
        (verbs p).regGlobal (addr p) (size p) = .call (.allreduceOr false) rest :=
      fun p => ⟨_, if_neg (accepts p)⟩
    choose continuation programs using programs
    have added : ∀ p, ∃ added : ℕ × CombinedMemoryRegister (MemorySlot n),
        (verbs p).memreg.addGlobalReg ⟨((verbs p).openMr (size p)).1, fun _ => .null⟩ =
          some added := by
      intro p
      apply Option.ne_none_iff_exists'.mp
      intro full
      have started := execution
      have unfolded : regAll verbs addr size =
          fun p => .call (.allreduceOr false) (continuation p) := funext programs
      rw [unfolded] at started
      rcases Executes.call_iff.mp started with ⟨_, _, _, rest⟩
      refine Executes.not_of_fault p ?_ rest
      have faults := (programs p).symm.trans (regGlobal_full (accepts p) full)
      rw [Program.call.injEq] at faults
      simp only [Collective.outcome, Collective.flag, Bool.false_eq_true, exists_false,
        decide_false]
      rw [eq_of_heq faults.2]
      exact if_neg Bool.false_ne_true
    choose added adds using added
    refine ⟨fun p => (added p).1, fun p => (added p).2, fun p => ⟨adds p, ?_⟩⟩
    rw [(execution.unique (regGlobal_executes accepts adds)).2]
    rfl
  · rw [not_forall] at refuses accepts
    rcases refuses with ⟨q, asks⟩
    rcases accepts with ⟨p, itRefuses⟩
    exact absurd execution (not_executes_regAll (not_not.mp itRefuses) asks)

theorem Consistent.regLocal {state : Fin n → IBVerbs n} (consistent : Consistent state)
    {pid : Fin n} {addr size : ℕ} {verbs : IBVerbs n} {result : Except Exn ℕ}
    (registers : IBVerbs.regLocal pid (state pid) addr size = some (verbs, result)) :
    Consistent (Function.update state pid verbs) := by
  have opened := memreg_openMr (state pid) size
  have nonempty := @pos_of_openMr n (state pid) size
  simp only [IBVerbs.regLocal] at registers
  generalize (state pid).openMr size = answer at registers opened nonempty
  rcases answer with ⟨mr, answered⟩
  simp only at registers opened nonempty
  split at registers
  next =>
    rw [Option.some.injEq, Prod.mk.injEq] at registers
    rw [← registers.1]
    apply consistent.keep
    · rw [opened]
      exact consistent.wellFormed pid
    · rw [opened]
    · rw [opened]
  next =>
    rcases Option.map_eq_some_iff.mp registers with ⟨⟨id, memreg⟩, adds, stored⟩
    rw [Prod.mk.injEq] at stored
    rw [opened] at adds
    rcases (consistent.wellFormed pid).addLocalReg adds fun slot =>
      { slot with glob := Function.update slot.glob pid (describe addr size mr) } with
      ⟨wellFormed, isLocal, sameGlobals, changes⟩
    rw [← stored.1]
    apply consistent.changeLocal wellFormed isLocal
      (congrArg MemoryRegister.dealer sameGlobals) changes
    intro entry same
    rw [Option.some.injEq] at same
    subst same
    refine ⟨⟨addr, size, nonempty, Function.update_self _ _ _⟩, ?_⟩
    intro q differs
    exact Function.update_of_ne differs _ _

theorem Consistent.regGlobal {state : Fin n → IBVerbs n} (consistent : Consistent state)
    {addr size : Fin n → ℕ} {rounds : List (Fin n → Collective n)}
    {results : Fin n → IBVerbs n × Except Exn ℕ}
    (execution : Executes (regAll state addr size) rounds results) :
    Consistent fun p => (results p).1 := by
  rcases regAll_cases execution with same | ⟨ids, memregs, stores⟩
  · apply consistent.of_same
    · intro p
      rw [same]
      exact consistent.wellFormed p
    · intro p
      rw [same]
    · intro p
      rw [same]
  · have added := fun p => (consistent.wellFormed p).addGlobalReg (stores p).1 fun slot =>
      { slot with glob := announced state addr size }
    -- all processes deal the same slot
    have dealt : ∃ id, CombinedMemoryRegister.isLocalSlot id = false ∧ ∀ p, ids p = id := by
      rcases Nat.eq_zero_or_pos n with rfl | positive
      · exact ⟨0, rfl, fun p => p.elim0⟩
      · refine ⟨_, CombinedMemoryRegister.isLocalSlot_toGlobal
          (state ⟨0, positive⟩).memreg.globalRegister.dealer.deal.1, ?_⟩
        intro p
        rw [(added p).2.1, consistent.sameDealer p ⟨0, positive⟩]
    rcases dealt with ⟨id, isGlobal, sameId⟩
    refine consistent.changeGlobal (fun dealer => dealer.deal.2)
      (fun p => some ⟨((state p).openMr (size p)).1, announced state addr size⟩) ?_ isGlobal
      ?_ ?_ ?_ ?_
    · intro p
      rw [(stores p).2]
      exact (added p).1
    · intro p
      rw [(stores p).2]
      exact (added p).2.2.1
    · intro p
      rw [(stores p).2, ← sameId p]
      exact (added p).2.2.2
    · intro p entry same
      rw [Option.some.injEq] at same
      subst same
      exact ⟨addr p, size p, pos_of_openMr, rfl⟩
    · intro p q left right same sameToo
      rw [Option.some.injEq] at same sameToo
      rw [← same, ← sameToo]

theorem Consistent.step {before after : Fin n → IBVerbs n} {call : Call n}
    (consistent : Consistent before) (permitted : Permitted before call)
    (taken : Step before call after) : Consistent after := by
  cases call with
  | regLocal pid addr size =>
      rcases taken with ⟨verbs, result, registers, rfl⟩
      exact consistent.regLocal registers
  | regGlobal addr size =>
      rcases taken with ⟨rounds, results, execution, rfl⟩
      exact consistent.regGlobal execution
  | deregLocal pid id =>
      rcases taken with ⟨verbs, drops, rfl⟩
      rcases Option.map_eq_some_iff.mp drops with ⟨memreg, removes, rfl⟩
      rcases Option.isSome_iff_exists.mp permitted.2 with ⟨entry, found⟩
      rcases (consistent.wellFormed pid).removeReg found removes with
        ⟨wellFormed, changes, dealer⟩
      rw [permitted.1, if_pos rfl] at dealer
      apply consistent.changeLocal wellFormed permitted.1 dealer changes
      intro entry same
      cases same
  | deregGlobal id =>
      have removed : ∀ p, (after p).memreg.WellFormed ∧
          (after p).memreg.record = Function.update (before p).memreg.record id none ∧
          (after p).memreg.globalRegister.dealer = (before p).memreg.globalRegister.dealer.recycle
            (CombinedMemoryRegister.fromGlobal id) := by
        intro p
        rcases Option.map_eq_some_iff.mp (taken p) with ⟨memreg, removes, same⟩
        rcases Option.isSome_iff_exists.mp (permitted.2 p) with ⟨entry, found⟩
        have removed := (consistent.wellFormed p).removeReg found removes
        rw [permitted.1, if_neg Bool.false_ne_true] at removed
        rw [← same]
        exact removed
      refine consistent.changeGlobal
        (fun dealer => dealer.recycle (CombinedMemoryRegister.fromGlobal id)) (fun _ => none)
        (fun p => (removed p).1) permitted.1 (fun p => (removed p).2.2)
        (fun p => (removed p).2.1) ?_ ?_
      · intro p entry same
        cases same
      · intro p q left right same
        cases same
  | resizeMemreg pid globalFaults localFaults size =>
      rw [taken]
      have reserved := (consistent.wellFormed pid).reserve globalFaults localFaults (.null n) size
      rw [resizeMemreg]
      split
      next => exact consistent.keep (consistent.wellFormed pid) rfl rfl
      next =>
        split
        next => exact consistent.keep (consistent.wellFormed pid) rfl rfl
        next => exact consistent.keep reserved.1 reserved.2.1 reserved.2.2
  | other pid =>
      rcases taken with ⟨verbs, same, rfl⟩
      apply consistent.keep
      · rw [same]
        exact consistent.wellFormed pid
      · rw [same]
      · rw [same]

/-- The processes know each other's areas in every state. -/
theorem Reachable.consistent {devices : Fin n → Device n} {state : Fin n → IBVerbs n}
    (run : Reachable devices state) : Consistent state := by
  apply run.invariant (Consistent.initial devices)
  intro before call after consistent permitted taken
  exact consistent.step permitted taken

end IBVerbs

end Talpf
