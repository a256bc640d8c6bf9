import Talpf.Interface.EarlyExit
import Talpf.MemoryTable.Agreement

/-!
# Calls between two syncs

The requests of a process that follows its contract succeed on a device that
grants everything.  What the next sync depends on, the number of slots that wait
to be registered and whether queue pairs are staged, follows from the list of
requests alone.
-/

namespace Talpf

variable {n : ℕ}

/-- A device that refuses nothing and supports at least one memory region. -/
structure Device.Grants (device : Device n) : Prop where
  regMr : ∀ k, (device.regMr k).isSome
  createQp : ∀ k, device.CreatesQp k
  gid : ∀ k, (device.gid k).isSome
  exchangeFits : ∀ k, device.exchangeFits k = true
  modifyQp : ∀ k peer, device.modifyQp k peer = true
  maxMr : 1 ≤ device.maxMr

/-- A device later on; only its call counters have moved. -/
def Device.Later (before after : Device n) : Prop :=
  after = { before with
    regMrCalls := after.regMrCalls
    createQpCalls := after.createQpCalls
    reconnects := after.reconnects }

theorem Device.Later.trans {before middle after : Device n} (first : before.Later middle)
    (second : middle.Later after) : before.Later after := by
  unfold Device.Later at *
  rw [second, first]

theorem Device.Later.sameRegMr {before after : Device n} (later : before.Later after) :
    after.regMr = before.regMr := by
  rw [later]

theorem Device.Later.sameMaxMr {before after : Device n} (later : before.Later after) :
    after.maxMr = before.maxMr := by
  rw [later]

theorem Device.Later.grants {before after : Device n} (later : before.Later after)
    (grants : before.Grants) : after.Grants := by
  rw [later]
  exact ⟨grants.regMr, grants.createQp, grants.gid, grants.exchangeFits, grants.modifyQp,
    grants.maxMr⟩

namespace Request

/-- Which of the global registrations wait for the next sync. -/
def waiting (flags : List Bool) : Request → List Bool
  | .registerGlobal _ _ => flags ++ [true]
  | .deregisterGlobal k => flags.set k false
  | .registerLocal _ _ | .deregisterLocal _ | .resizeMesgQueue _ | .resizeMemreg _ => flags

/-- A request after which the queue pairs have to be reconnected. -/
def isResize : Request → Bool
  | .resizeMesgQueue _ | .resizeMemreg _ => true
  | .registerLocal _ _ | .deregisterLocal _ | .registerGlobal _ _ | .deregisterGlobal _ => false

/-- The largest message queue that is not refused at once. -/
def maxMesgQueue : ℕ := 2 ^ 63 + 2 ^ 10

/-- Make a request that fulfils the contract of its caller. -/
def accept (maxMr : ℕ) (ledger : Ledger) : Request → Option Ledger
  | .registerLocal mem size => ledger.accept maxMr (.registerLocal mem size)
  | .deregisterLocal k => ledger.accept maxMr (.deregisterLocal k)
  | .registerGlobal mem size => ledger.accept maxMr (.registerGlobal mem size)
  | .deregisterGlobal k => ledger.accept maxMr (.deregisterGlobal k)
  | .resizeMesgQueue nMsgs => if nMsgs ≤ maxMesgQueue then some ledger else none
  | .resizeMemreg nRegs => ledger.accept maxMr (.reserve (nRegs + 1))

end Request

/-- The numbers of the slots that wait, from the keys of all global registrations. -/
def flagged (keys : List (ℕ × Bool)) (flags : List Bool) : List ℕ :=
  ((keys.zip flags).filter Prod.snd).map fun pair => pair.1.1 / 2

/-- The flags tell which slots are pending. -/
structure Waits (pending : List ℕ) (keys : List (ℕ × Bool)) (flags : List Bool) : Prop where
  length : flags.length = keys.length
  perm : pending.Perm (flagged keys flags)
  live : ∀ pair ∈ keys.zip flags, pair.2 = true → pair.1.2 = true

namespace Waits

variable {pending : List ℕ} {keys : List (ℕ × Bool)} {flags : List Bool}

theorem initial : Waits [] [] [] := ⟨rfl, .refl _, by simp⟩

theorem length_pending (waits : Waits pending keys flags) :
    pending.length = flags.count true := by
  have seconds : (keys.zip flags).map Prod.snd = flags := List.map_snd_zip waits.length.le
  rw [waits.perm.length_eq, flagged, List.length_map, ← List.countP_eq_length_filter]
  conv_rhs => rw [← seconds]
  rw [List.count, List.countP_map]
  congr
  funext pair
  simp

theorem flagged_append {front : List (ℕ × Bool)} {frontFlags : List Bool}
    (same : frontFlags.length = front.length) (back : List (ℕ × Bool)) (backFlags : List Bool) :
    flagged (front ++ back) (frontFlags ++ backFlags) =
      flagged front frontFlags ++ flagged back backFlags := by
  rw [flagged, List.zip_append same.symm, List.filter_append, List.map_append]
  rfl

theorem register (waits : Waits pending keys flags) (slot : ℕ) :
    Waits (pending ++ [slot]) (keys ++ [(CombinedMemoryRegister.toGlobal slot, true)])
      (flags ++ [true]) where
  length := by simp [waits.length]
  perm := by
    rw [flagged_append waits.length]
    apply waits.perm.append
    have number : CombinedMemoryRegister.toGlobal slot / 2 = slot := by
      simp only [CombinedMemoryRegister.toGlobal]
      omega
    simp [flagged, number]
  live pair member := by
    rw [List.zip_append waits.length.symm] at member
    rcases List.mem_append.mp member with old | new
    · exact waits.live pair old
    · simp only [List.zip_cons_cons, List.zip_nil_right, List.mem_singleton] at new
      rw [new]
      exact fun _ => rfl

theorem clear (waits : Waits pending keys flags) :
    Waits [] keys (flags.map fun _ => false) where
  length := by simp [waits.length]
  perm := by
    have none : (keys.zip (flags.map fun _ => false)).filter Prod.snd = [] := by
      rw [List.filter_eq_nil_iff]
      intro pair member
      have second := List.mem_map.mp (List.of_mem_zip member).2
      rcases second with ⟨_, _, isFalse⟩
      simp [← isFalse]
    rw [flagged, none]
    exact .nil
  live pair member isTrue := by
    rcases List.mem_map.mp (List.of_mem_zip member).2 with ⟨_, _, isFalse⟩
    rw [← isFalse] at isTrue
    cases isTrue

/-- The live registrations have different slots, so a flag is set if its slot is pending. -/
theorem flagged_mem {slot : ℕ} {front back : List (ℕ × Bool)} {frontFlags backFlags : List Bool}
    {isWaiting : Bool} (same : frontFlags.length = front.length)
    (waits : Waits pending (front ++ (slot, true) :: back)
      (frontFlags ++ isWaiting :: backFlags))
    (nodup : (((front ++ (slot, true) :: back).filter Prod.snd).map fun key => key.1 / 2).Nodup) :
    slot / 2 ∉ flagged front frontFlags ++ flagged back backFlags := by
  have parts : ∀ (keys : List (ℕ × Bool)) (flags : List Bool),
      (∀ pair ∈ keys.zip flags, pair.2 = true → pair.1.2 = true) →
      ∀ number ∈ flagged keys flags, number ∈ (keys.filter Prod.snd).map fun key => key.1 / 2 := by
    intro keys flags live number member
    rcases List.mem_map.mp member with ⟨pair, found, rfl⟩
    rcases List.mem_filter.mp found with ⟨inZip, isTrue⟩
    exact List.mem_map_of_mem
      (List.mem_filter.mpr ⟨(List.of_mem_zip inZip).1, live pair inZip isTrue⟩)
  have live := waits.live
  rw [List.zip_append same.symm] at live
  rw [List.filter_append, List.filter_cons_of_pos rfl, List.map_append, List.map_cons,
    List.nodup_middle, List.nodup_cons, ← List.map_append, List.map_append] at nodup
  intro member
  apply nodup.1
  rcases List.mem_append.mp member with early | late
  · apply List.mem_append_left
    exact parts front frontFlags
      (fun pair found => live pair (List.mem_append_left _ found)) _ early
  · apply List.mem_append_right
    exact parts back backFlags (fun pair found => live pair
      (List.mem_append_right _ (List.mem_cons_of_mem _ found))) _ late

/-- A registration that is removed does not wait any longer. -/
theorem deregister {k slot : ℕ} (waits : Waits pending keys flags)
    (nodup : ((keys.filter Prod.snd).map fun key => key.1 / 2).Nodup)
    (found : keys[k]? = some (slot, true)) :
    Waits (if slot / 2 ∈ pending then SparseSet.eraseSwap pending (slot / 2) else pending)
      (keys.set k (slot, false)) (flags.set k false) := by
  rcases List.getElem?_eq_some_iff.mp found with ⟨bound, atKey⟩
  have boundFlags : k < flags.length := waits.length.symm ▸ bound
  obtain ⟨front, back, keysSplit, frontLength⟩ :
      ∃ front back, keys = front ++ (slot, true) :: back ∧ front.length = k :=
    ⟨keys.take k, keys.drop (k + 1), by
      rw [← atKey, List.getElem_cons_drop, List.take_append_drop],
      List.length_take_of_le bound.le⟩
  obtain ⟨frontFlags, isWaiting, backFlags, flagsSplit, flagsLength⟩ :
      ∃ frontFlags isWaiting backFlags, flags = frontFlags ++ isWaiting :: backFlags ∧
        frontFlags.length = k :=
    ⟨flags.take k, flags[k], flags.drop (k + 1), by
      rw [List.getElem_cons_drop, List.take_append_drop], List.length_take_of_le boundFlags.le⟩
  subst keysSplit flagsSplit
  have same : frontFlags.length = front.length := flagsLength.trans frontLength.symm
  have fresh := waits.flagged_mem same nodup
  have perm := waits.perm
  have live := waits.live
  rw [flagged_append same] at perm
  rw [List.zip_append same.symm] at live
  rw [← frontLength, List.set_append_right _ _ (Nat.le_refl _), Nat.sub_self, List.set_cons_zero,
    ← same, List.set_append_right _ _ (Nat.le_refl _), Nat.sub_self, List.set_cons_zero]
  have rest : flagged ((slot, false) :: back) (false :: backFlags) = flagged back backFlags := rfl
  refine ⟨?_, ?_, ?_⟩
  · have lengths := waits.length
    simpa using lengths
  · rw [flagged_append same, rest]
    cases isWaiting with
    | true =>
        have head : flagged ((slot, true) :: back) (true :: backFlags) =
            slot / 2 :: flagged back backFlags := rfl
        rw [head] at perm
        have member : slot / 2 ∈ pending := perm.mem_iff.mpr (by simp)
        rw [if_pos member]
        apply (SparseSet.eraseSwap_perm member).trans
        have erased := (perm.trans List.perm_middle).erase (slot / 2)
        rwa [List.erase_cons_head] at erased
    | false =>
        have head : flagged ((slot, true) :: back) (false :: backFlags) =
            flagged back backFlags := rfl
        rw [head] at perm
        have absent : slot / 2 ∉ pending := fun member => fresh (perm.mem_iff.mp member)
        rw [if_neg absent]
        exact perm
  · intro pair member isTrue
    rw [List.zip_append same.symm] at member
    rcases List.mem_append.mp member with early | late
    · exact live pair (List.mem_append_left _ early) isTrue
    · rcases List.mem_cons.mp late with rfl | late
      · cases isTrue
      · exact live pair (List.mem_append_right _ (List.mem_cons_of_mem _ late)) isTrue

end Waits

theorem Shared.waits_register {shared : Shared n} {flags : List Bool}
    (waits : Waits shared.pending shared.keys flags) :
    Waits (shared.advance .register).pending (shared.advance .register).keys (flags ++ [true]) :=
  waits.register _

theorem Shared.waits_deregister {shared : Shared n} {flags : List Bool} {k slot : ℕ}
    (waits : Waits shared.pending shared.keys flags)
    (nodup : ((shared.keys.filter Prod.snd).map fun key => key.1 / 2).Nodup)
    (found : shared.keys[k]? = some (slot, true)) :
    Waits (shared.advance (.deregister k)).pending (shared.advance (.deregister k)).keys
      (flags.set k false) := by
  have removed := waits.deregister nodup found
  simp only [Shared.advance, found]
  split
  · next member => rwa [if_pos member] at removed
  · next absent => rwa [if_neg absent] at removed

namespace IBVerbs

theorem SameButMemory.later {before after : IBVerbs n} (same : SameButMemory before after) :
    before.device.Later after.device := by
  rw [same]
  rfl

end IBVerbs

namespace Node

open IBVerbs

theorem sameButMemory_deregister {node : Node n} {registrations after : List Registration} {k : ℕ}
    {table : MemoryTable} {verbs : IBVerbs n}
    (removed : node.deregister registrations k = some (table, verbs, after)) :
    SameButMemory node.verbs verbs := by
  simp only [deregister] at removed
  split at removed
  · cases removed
  · split at removed
    · rcases Option.map_eq_some_iff.mp removed with ⟨⟨_, _⟩, gone, same⟩
      cases same
      simp only [MemoryTable.remove] at gone
      split at gone
      · rcases Option.map_eq_some_iff.mp gone with ⟨_, _, same⟩
        cases same
        exact .refl _
      · split at gone
        · cases gone
        · split at gone
          · cases gone
          · next dropped =>
              rcases Option.map_eq_some_iff.mp gone with ⟨_, _, same⟩
              cases same
              exact sameButMemory_dereg dropped
    · cases removed

theorem sameButMemory_reserve (faults : MemoryTable.Faults) (table : MemoryTable)
    (verbs : IBVerbs n) (size : ℕ) :
    SameButMemory verbs (table.reserve faults verbs size).1.2 := by
  have resized := sameButMemory_resizeMemreg faults.verbsGlobal faults.verbsLocal verbs size
  simp only [MemoryTable.reserve]
  split
  · exact .refl _
  · split
    · exact .refl _
    · generalize verbs.resizeMemreg faults.verbsGlobal faults.verbsLocal size = outcome at resized ⊢
      rcases outcome with ⟨after, _ | exn⟩ <;> exact resized

/-- The calls on the memory table change nothing of the verbs layer but memory slots. -/
theorem sameButMemory_step {pid : Fin n} {node after : Node n} {call : Call}
    (stepped : node.step pid call = some after) : SameButMemory node.verbs after.verbs := by
  cases call with
  | registerLocal mem size =>
      simp only [step, MemoryTable.addLocal] at stepped
      cases registered : IBVerbs.regLocal pid node.verbs mem size with
      | none => simp [registered] at stepped
      | some outcome =>
          rcases outcome with ⟨verbs, exn | id⟩
          · simp [registered] at stepped
          · rw [registered] at stepped
            simp only at stepped
            split at stepped
            · next added =>
                rcases Option.map_eq_some_iff.mp added with ⟨_, _, same⟩
                cases same
                cases stepped
                exact sameButMemory_regLocal registered
            · cases stepped
  | deregisterLocal k =>
      rcases Option.map_eq_some_iff.mp stepped with ⟨⟨table, verbs, locals⟩, removed, rfl⟩
      exact sameButMemory_deregister removed
  | reserve size =>
      simp only [step] at stepped
      split at stepped
      · have reserved := sameButMemory_reserve .none node.table node.verbs size
        generalize node.table.reserve .none node.verbs size = outcome at reserved stepped
        rcases outcome with ⟨⟨table, verbs⟩, _ | exn⟩
        · cases stepped
          exact reserved
        · cases stepped
      · cases stepped
        exact .refl _
  | registerGlobal mem size =>
      rcases Option.map_eq_some_iff.mp stepped with ⟨_, _, rfl⟩
      exact .refl _
  | deregisterGlobal k =>
      rcases Option.map_eq_some_iff.mp stepped with ⟨⟨table, verbs, globals⟩, removed, rfl⟩
      exact sameButMemory_deregister removed
  | sync => cases stepped

end Node

theorem IBVerbs.stagePeers_granted (peers : List (Fin n)) (verbs : IBVerbs n)
    (granted : ∀ k, verbs.device.CreatesQp k) : (stagePeers peers verbs).2 = none := by
  induction peers generalizing verbs with
  | nil => rfl
  | cons peer peers ih =>
      have staging := verbs.stageQp_staging peer
      have created := (verbs.stageQp_cases peer).2
      simp only [stagePeers]
      generalize verbs.stageQp peer = outcome at staging created ⊢
      rcases outcome with ⟨staged, thrown⟩
      rcases created with ⟨_, rfl, _⟩ | ⟨refused, _⟩
      · apply ih
        rw [staging.device]
        exact granted
      · exact absurd (granted _) refused

theorem IBVerbs.resizeMesgq_granted {verbs : IBVerbs n} (size : ℕ)
    (granted : ∀ k, verbs.device.CreatesQp k) :
    Staging verbs (verbs.resizeMesgq size).1 ∧ (verbs.resizeMesgq size).1.Staged ∧
      (verbs.resizeMesgq size).2 = none := by
  have succeeds : (verbs.resizeMesgq size).2 = none := by
    have staged := stagePeers_granted (List.finRange n)
      { verbs with cqSize := min size (verbs.device.maxSrs / 4) } granted
    simp only [resizeMesgq, stageQPs]
    generalize stagePeers (List.finRange n)
      { verbs with cqSize := min size (verbs.device.maxSrs / 4) } = outcome at staged ⊢
    rcases outcome with ⟨_, thrown⟩
    cases staged
    rfl
  rcases verbs.resizeMesgq_spec size with ⟨staging, _, ⟨_, staged⟩ | ⟨throws, _⟩⟩
  · exact ⟨staging, staged, succeeds⟩
  · rw [succeeds] at throws
    cases throws

/-- A resize of the message queue that the device grants. -/
theorem MessageQueue.resizeMesgQueue_granted {queue : MessageQueue n} {nMsgs : ℕ}
    (fits : nMsgs ≤ Request.maxMesgQueue)
    (granted : ∀ k, queue.ibverbs.device.CreatesQp k) :
    ∃ ibverbs : IBVerbs n, IBVerbs.Staging queue.ibverbs ibverbs ∧ ibverbs.Staged ∧
      queue.resizeMesgQueue nMsgs = ({ queue with
        resized := true
        maxNMsgs := max queue.maxNMsgs nMsgs
        ibverbs := ibverbs }, some .success) := by
  have spec := IBVerbs.resizeMesgq_granted nMsgs granted
  have small : ¬nMsgs > 2 ^ 63 + 2 ^ 10 := Nat.not_lt.mpr fits
  simp only [resizeMesgQueue, if_neg small]
  generalize queue.ibverbs.resizeMesgq nMsgs = outcome at spec ⊢
  rcases outcome with ⟨ibverbs, thrown⟩
  rcases spec with ⟨staging, staged, succeeds⟩
  cases succeeds
  exact ⟨ibverbs, staging, staged, rfl⟩

/-- A process that has made its requests as its contract demands: `flags` tells which global
registrations wait, and `resized` whether the queue pairs have to be reconnected. -/
structure Prepared (pid : Fin n) (device : Device n) (shared : Shared n) (ledger : Ledger)
    (flags : List Bool) (resized : Bool) (caller : Caller n) : Prop where
  consistent : Consistent pid device shared ledger caller.node
  waits : Waits shared.pending shared.keys flags
  later : device.Later caller.queue.ibverbs.device
  idle : caller.queue.ibverbs.syncRequest.isActive = false
  notCached : caller.queue.ibverbs.syncCached = false
  isResized : caller.queue.resized = resized
  staged : resized = true → caller.queue.ibverbs.Staged
  unstaged : resized = false → caller.queue.ibverbs.stagedQps = fun _ => none
  bounded : caller.queue.maxNMsgs ≤ Request.maxMesgQueue

/-- The constructor of the message queue reserves a slot. -/
theorem Node.step_reserve_initial {pid : Fin n} {device : Device n} {after : Node n}
    (stepped : (Node.initial device).step pid (.reserve 1) = some after) :
    after = (Process.begin device).node ∧
      (MemoryTable.initial.reserve .none (IBVerbs.initial device) 1).2 = none := by
  simp only [Node.step, Node.initial] at stepped
  simp only [Caller.node, Caller.queue, Process.begin, MessageQueue.initial]
  generalize MemoryTable.initial.reserve .none (IBVerbs.initial device) 1 = outcome at stepped ⊢
  rcases outcome with ⟨⟨table, verbs⟩, _ | exn⟩
  · cases stepped
    exact ⟨rfl, rfl⟩
  · cases stepped

theorem Device.Grants.constructs {device : Device n} (grants : device.Grants) (pid : Fin n) :
    (MemoryTable.initial.reserve .none (IBVerbs.initial device) 1).2 = none := by
  have limits : 1 ≤ 2 ^ 31 - 1 ∧ 1 ≤ device.maxMr := ⟨by decide, grants.maxMr⟩
  rcases (Consistent.initial pid device).reserve limits with ⟨after, stepped, _⟩
  exact (Node.step_reserve_initial stepped).2

/-- Consistency is about memory slots only. -/
theorem Consistent.of_sameMemory {pid : Fin n} {device : Device n} {shared : Shared n}
    {ledger : Ledger} {node : Node n} (consistent : Consistent pid device shared ledger node)
    {verbs : IBVerbs n} (sameMemreg : verbs.memreg = node.verbs.memreg)
    (sameAnswers : verbs.device.regMr = node.verbs.device.regMr)
    (sameMaxMr : verbs.device.maxMr = node.verbs.device.maxMr) :
    Consistent pid device shared ledger { node with verbs := verbs } where
  realises :=
    { represents := by
        simp only [sameMemreg]
        exact consistent.realises.represents
      room := by
        simp only [sameMemreg]
        exact consistent.realises.room
      addedWellFormed := consistent.realises.addedWellFormed
      addedMin := consistent.realises.addedMin
      addedMax := consistent.realises.addedMax
      elements := consistent.realises.elements }
  keys := consistent.keys
  globals := consistent.globals
  even := consistent.even
  areas := consistent.areas
  locals := by
    simp only [sameMemreg]
    exact consistent.locals
  reserved := by
    have reserved := consistent.reserved
    refine ⟨reserved.tableCapacity, reserved.tableGlobal, reserved.tableLocal, ?_, ?_,
      reserved.addedMax⟩
    · simp only [sameMemreg]
      exact reserved.verbsGlobal
    · simp only [sameMemreg]
      exact reserved.verbsLocal
  ledgerLocals := consistent.ledgerLocals
  ledgerGlobals := consistent.ledgerGlobals
  sameAnswers := sameAnswers.trans consistent.sameAnswers
  sameMaxMr := sameMaxMr.trans consistent.sameMaxMr

namespace Prepared

variable {pid : Fin n} {device : Device n} {shared : Shared n} {ledger ledgerAfter : Ledger}
  {flags : List Bool} {resized : Bool} {caller : Caller n}

theorem grants (prepared : Prepared pid device shared ledger flags resized caller)
    (grants : device.Grants) : caller.queue.ibverbs.device.Grants := prepared.later.grants grants

/-- Live registrations have different slots. -/
theorem nodup_keys (prepared : Prepared pid device shared ledger flags resized caller) :
    ((shared.keys.filter Prod.snd).map fun key => key.1 / 2).Nodup := by
  have nodup := prepared.consistent.globals.nodup
  rw [← prepared.consistent.keys, List.filter_map, List.map_map]
  exact nodup

theorem initial (pid : Fin n) (grants : device.Grants) :
    ∃ shared : Shared n,
      Prepared pid device shared ⟨1, [], []⟩ [] false (Process.begin device) := by
  have limits : 1 ≤ 2 ^ 31 - 1 ∧ 1 ≤ device.maxMr := ⟨by decide, grants.maxMr⟩
  rcases (Consistent.initial pid device).reserve limits with
    ⟨after, stepped, consistent⟩
  have spec := MessageQueue.initial_spec device
  have frame := Node.sameButMemory_reserve .none MemoryTable.initial (IBVerbs.initial device) 1
  rw [(Node.step_reserve_initial stepped).1] at consistent
  exact ⟨.initial, consistent, .initial, frame.later, spec.1.idle, spec.2.2.1, rfl,
    (fun isResized => by cases isResized), fun _ => spec.2.2.2.1, Nat.zero_le _⟩

/-- A call on the memory table. -/
theorem register (prepared : Prepared pid device shared ledger flags resized caller)
    (grants : device.Grants) {call : Call} (notSync : call ≠ .sync)
    (accepted : ledger.accept device.maxMr call = some ledgerAfter) {flagsAfter : List Bool}
    (waits : Waits (call.global.elim shared shared.advance).pending
      (call.global.elim shared shared.advance).keys flagsAfter) :
    ∃ after, caller.register pid call = some after ∧
      Prepared pid device (call.global.elim shared shared.advance) ledgerAfter flagsAfter resized
        after := by
  rcases prepared.consistent.step notSync accepted with ⟨_, refused⟩ | ⟨node, stepped, consistent⟩
  · exact absurd (prepared.consistent.answers.mpr grants.regMr) refused
  · have frame : IBVerbs.SameButMemory caller.queue.ibverbs node.verbs :=
      Node.sameButMemory_step stepped
    have registered : caller.register pid call = some (caller.withNode node) := by
      rw [Caller.register, stepped]
      rfl
    refine ⟨caller.withNode node, registered, consistent, waits, ?_, ?_, ?_,
      prepared.isResized, ?_, ?_, prepared.bounded⟩
    · exact prepared.later.trans frame.later
    · have request := congrArg (fun verbs => verbs.syncRequest.isActive) frame
      exact request.trans prepared.idle
    · have cached := congrArg IBVerbs.syncCached frame
      exact cached.trans prepared.notCached
    · intro isResized peer
      have staged := congrFun (congrArg IBVerbs.stagedQps frame) peer
      have before := prepared.staged isResized peer
      rw [← before]
      exact congrArg Option.isSome staged
    · intro notResized
      have staged := congrArg IBVerbs.stagedQps frame
      exact staged.trans (prepared.unstaged notResized)

/-- Staging queue pairs prepares for a reconnection. -/
theorem stage (prepared : Prepared pid device shared ledger flags resized caller)
    {ibverbs : IBVerbs n} (staging : IBVerbs.Staging caller.queue.ibverbs ibverbs)
    (staged : ibverbs.Staged) {queue : MessageQueue n}
    (sameMemreg : queue.memreg = caller.queue.memreg) (sameVerbs : queue.ibverbs = ibverbs)
    (isResized : queue.resized = true) (bounded : queue.maxNMsgs ≤ Request.maxMesgQueue) :
    Prepared pid device shared ledger flags true (caller.withQueue queue) := by
  have sameRegMr := congrArg Device.regMr staging.device
  have sameMaxMr := congrArg Device.maxMr staging.device
  have consistent := prepared.consistent.of_sameMemory staging.sameMemreg sameRegMr sameMaxMr
  have sameNode : (caller.withQueue queue).node = { caller.node with verbs := ibverbs } := by
    simp only [Caller.node, Caller.queue, Caller.withQueue] at sameMemreg ⊢
    rw [sameMemreg, sameVerbs]
  have later : caller.queue.ibverbs.device.Later ibverbs.device := by
    rw [staging.device]
    rfl
  subst sameVerbs
  exact
    { consistent := by rw [sameNode]; exact consistent
      waits := prepared.waits
      later := prepared.later.trans later
      idle := (congrArg SyncRequest.isActive staging.sameRequest).trans prepared.idle
      notCached := staging.sameCached.trans prepared.notCached
      isResized := isResized
      staged := fun _ => staged
      unstaged := fun notResized => by cases notResized
      bounded := bounded }

theorem resizeMesgQueue (prepared : Prepared pid device shared ledger flags resized caller)
    (grants : device.Grants) {nMsgs : ℕ} (fits : nMsgs ≤ Request.maxMesgQueue) :
    ∃ after, caller.resize (.mesgQueue nMsgs) = some after ∧
      Prepared pid device shared ledger flags true after := by
  rcases MessageQueue.resizeMesgQueue_granted fits (prepared.grants grants).createQp with
    ⟨ibverbs, staging, staged, resize⟩
  refine ⟨_, by rw [Caller.resize, MessageQueue.resize, resize], ?_⟩
  exact prepared.stage staging staged rfl rfl rfl (max_le prepared.bounded fits)

/-- A resize of the memory register reserves slots and then resizes the message queue. -/
theorem resizeMemreg_eq {node : Node n} {nRegs : ℕ} (small : nRegs ≤ 2 ^ 64 - 2)
    (stepped : caller.node.step pid (.reserve (nRegs + 1)) = some node) :
    (caller.queue.resizeMemreg .none none nRegs =
      match (caller.withNode node).queue.resizeMesgQueue caller.queue.maxNMsgs with
      | (queue, some .success) => ({ queue with nextMemRegSize := nRegs + 1 }, some .success)
      | (queue, some _) => (queue, some .outOfMemory)
      | (queue, none) => (queue, none)) ∧
    ∀ queue, (caller.withNode node).withQueue queue = caller.withQueue queue := by
  simp only [MessageQueue.resizeMemreg, if_neg (Nat.not_lt.mpr small), MessageQueue.reserveMemreg]
  simp only [Node.step] at stepped
  by_cases grows : caller.node.table.capacity < nRegs + 1
  · have growing : caller.queue.memreg.capacity < nRegs + 1 := grows
    rw [if_pos grows] at stepped
    simp only [if_pos growing]
    simp only [Caller.node] at stepped
    generalize caller.queue.memreg.reserve .none caller.queue.ibverbs (nRegs + 1) = outcome
      at stepped ⊢
    rcases outcome with ⟨⟨table, verbs⟩, _ | exn⟩
    · cases stepped
      exact ⟨rfl, fun _ => rfl⟩
    · cases stepped
  · have fitting : ¬caller.queue.memreg.capacity < nRegs + 1 := grows
    rw [if_neg grows] at stepped
    simp only [if_neg fitting]
    cases stepped
    exact ⟨rfl, fun _ => rfl⟩

theorem resizeMemreg (prepared : Prepared pid device shared ledger flags resized caller)
    (grants : device.Grants) {nRegs : ℕ}
    (accepted : ledger.accept device.maxMr (.reserve (nRegs + 1)) = some ledgerAfter) :
    ∃ after, caller.resize (.memreg .none none nRegs) = some after ∧
      Prepared pid device shared ledgerAfter flags true after := by
  have small : nRegs ≤ 2 ^ 64 - 2 := by
    simp only [Ledger.accept, Option.ite_none_right_eq_some] at accepted
    omega
  rcases prepared.register grants (by simp) accepted prepared.waits with
    ⟨middle, registered, ready⟩
  rcases Option.map_eq_some_iff.mp registered with ⟨node, stepped, rfl⟩
  rcases MessageQueue.resizeMesgQueue_granted prepared.bounded (ready.grants grants).createQp with
    ⟨ibverbs, staging, staged, resize⟩
  rcases resizeMemreg_eq small stepped with ⟨resized, sameCaller⟩
  simp only [resize] at resized
  refine ⟨_, by rw [Caller.resize, MessageQueue.resize, resized], ?_⟩
  simp only [← sameCaller]
  exact ready.stage staging staged rfl rfl rfl (max_le prepared.bounded prepared.bounded)

/-- A request of the contract succeeds. -/
theorem make (prepared : Prepared pid device shared ledger flags resized caller)
    (grants : device.Grants) {request : Request}
    (accepted : request.accept device.maxMr ledger = some ledgerAfter) :
    ∃ sharedAfter after, caller.make pid request = some after ∧
      Prepared pid device sharedAfter ledgerAfter (request.waiting flags)
        (resized || request.isResize) after := by
  have waits := prepared.waits
  cases request with
  | registerLocal mem size =>
      simp only [Request.accept] at accepted
      rw [Request.isResize, Bool.or_false]
      exact ⟨_, prepared.register grants (by simp) accepted waits⟩
  | deregisterLocal k =>
      simp only [Request.accept] at accepted
      rw [Request.isResize, Bool.or_false]
      exact ⟨_, prepared.register grants (by simp) accepted waits⟩
  | registerGlobal mem size =>
      simp only [Request.accept] at accepted
      rw [Request.isResize, Bool.or_false]
      exact ⟨_, prepared.register grants (by simp) accepted (Shared.waits_register waits)⟩
  | deregisterGlobal k =>
      simp only [Request.accept] at accepted
      have live : ledger.globals[k]? = some true := by
        simp only [Ledger.accept, Option.ite_none_right_eq_some] at accepted
        exact accepted.1
      rw [prepared.consistent.ledgerGlobals, List.getElem?_map] at live
      rcases Option.map_eq_some_iff.mp live with ⟨registration, found, isLive⟩
      have key : shared.keys[k]? = some (registration.slot, true) := by
        rw [← prepared.consistent.keys, List.getElem?_map, found, ← isLive]
        rfl
      rw [Request.isResize, Bool.or_false]
      exact ⟨_, prepared.register grants (by simp) accepted
        (Shared.waits_deregister waits prepared.nodup_keys key)⟩
  | resizeMesgQueue nMsgs =>
      simp only [Request.accept, Option.ite_none_right_eq_some, Option.some.injEq] at accepted
      rcases accepted with ⟨fits, rfl⟩
      rw [Request.isResize, Bool.or_true]
      exact ⟨_, prepared.resizeMesgQueue grants fits⟩
  | resizeMemreg nRegs =>
      rw [Request.isResize, Bool.or_true]
      exact ⟨_, prepared.resizeMemreg grants accepted⟩

/-- All requests of a superstep succeed. -/
theorem makeAll {requests : List Request}
    (prepared : Prepared pid device shared ledger flags resized caller) (grants : device.Grants)
    (accepted : requests.foldlM (Request.accept device.maxMr) ledger = some ledgerAfter) :
    ∃ sharedAfter after, caller.makeAll pid requests = some after ∧
      Prepared pid device sharedAfter ledgerAfter (requests.foldl Request.waiting flags)
        (resized || requests.any Request.isResize) after := by
  induction requests generalizing shared ledger flags resized caller with
  | nil =>
      cases accepted
      rw [List.any_nil, Bool.or_false]
      exact ⟨shared, caller, rfl, prepared⟩
  | cons request requests ih =>
      rw [List.foldlM_cons] at accepted
      rcases Option.bind_eq_some_iff.mp accepted with ⟨middle, first, rest⟩
      rcases prepared.make grants first with ⟨_, after, made, ready⟩
      rcases ih ready rest with ⟨sharedLast, last, madeRest, readyLast⟩
      rw [List.any_cons, ← Bool.or_assoc]
      refine ⟨sharedLast, last, ?_, readyLast⟩
      rw [Caller.makeAll_cons, made]
      exact madeRest

/-- The rest of a script succeeds if its syncs change nothing. -/
theorem performs {supersteps : List (List Request)} {last : List Request}
    (prepared : Prepared pid device shared ledger flags resized caller) (grants : device.Grants)
    (accepted : (supersteps.flatten ++ last).foldlM (Request.accept device.maxMr) ledger =
      some ledgerAfter) : Caller.Performs pid last supersteps caller := by
  induction supersteps generalizing shared ledger flags resized caller with
  | nil =>
      rcases prepared.makeAll grants accepted with ⟨_, after, made, _⟩
      exact Option.isSome_iff_exists.mpr ⟨after, made⟩
  | cons requests supersteps ih =>
      rw [List.flatten_cons, List.append_assoc, List.foldlM_append] at accepted
      rcases Option.bind_eq_some_iff.mp accepted with ⟨middle, first, rest⟩
      rcases prepared.makeAll grants first with ⟨_, after, made, ready⟩
      exact ⟨after, made, ready.idle, ih ready rest⟩

/-- What is prepared does not depend on what the process knows about aborts. -/
theorem notified (prepared : Prepared pid device shared ledger flags resized caller)
    (count : ℕ) : Prepared pid device shared ledger flags resized
      (caller.notified caller.queue count) :=
  ⟨prepared.consistent, prepared.waits, prepared.later, prepared.idle, prepared.notCached,
    prepared.isResized, prepared.staged, prepared.unstaged, prepared.bounded⟩

end Prepared

end Talpf
