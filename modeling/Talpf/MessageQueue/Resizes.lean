import Talpf.MessageQueue.Lockstep

/-!
# Resizes and supersteps

A resize stages queue pairs and leaves the rest to the next sync.  This file
says what a resize and a superstep do to everything that later resizes and
supersteps depend on: the request to reconnect, the staged and the connected
queue pairs, and the state of the sync request.
-/

namespace Talpf

open Spmd

namespace IBVerbs

variable {n : ℕ}

/-- Staging replaces staged pairs and nothing else. -/
structure Staging (before after : IBVerbs n) : Prop where
  sameConnected : after.connectedQps = before.connectedQps
  sameRequest : after.syncRequest = before.syncRequest
  sameCached : after.syncCached = before.syncCached
  sameMemreg : after.memreg = before.memreg
  device : after.device = { before.device with createQpCalls := after.device.createQpCalls }

theorem Staging.refl (verbs : IBVerbs n) : Staging verbs verbs := ⟨rfl, rfl, rfl, rfl, rfl⟩

theorem Staging.trans {before middle after : IBVerbs n} (first : Staging before middle)
    (second : Staging middle after) : Staging before after := by
  refine ⟨second.sameConnected.trans first.sameConnected,
    second.sameRequest.trans first.sameRequest, second.sameCached.trans first.sameCached,
    second.sameMemreg.trans first.sameMemreg, ?_⟩
  have device := second.device
  rw [first.device] at device
  exact device

theorem stageQp_staging (verbs : IBVerbs n) (peer : Fin n) :
    Staging verbs (verbs.stageQp peer).1 := by
  simp only [stageQp]
  split <;> exact ⟨rfl, rfl, rfl, rfl, rfl⟩

theorem createQpCalls_stageQp (verbs : IBVerbs n) (peer : Fin n) :
    (verbs.stageQp peer).1.device.createQpCalls = verbs.device.createQpCalls + 1 := by
  simp only [stageQp]
  split <;> rfl

/-- One attempt to create a queue pair replaces what is staged for its peer, and for nobody else. -/
theorem stageQp_cases (verbs : IBVerbs n) (peer : Fin n) :
    (∀ other, other ≠ peer →
        (verbs.stageQp peer).1.stagedQps other = verbs.stagedQps other) ∧
      (verbs.device.CreatesQp verbs.device.createQpCalls ∧ (verbs.stageQp peer).2 = none ∧
          (verbs.stageQp peer).1.stagedQps peer =
            (verbs.device.createQp verbs.device.createQpCalls).map (⟨·, none⟩) ∨
        ¬verbs.device.CreatesQp verbs.device.createQpCalls ∧
          (verbs.stageQp peer).2 = some .badAlloc ∧
          (verbs.stageQp peer).1.stagedQps peer =
            if verbs.device.controlBlock verbs.device.createQpCalls then none
            else verbs.stagedQps peer) := by
  simp only [stageQp, Device.CreatesQp]
  cases verbs.device.controlBlock verbs.device.createQpCalls with
  | false =>
      refine ⟨fun _ _ => rfl, Or.inr ⟨fun creates => ?_, rfl, rfl⟩⟩
      cases creates.1
  | true =>
      refine ⟨fun other differs => Function.update_of_ne differs _ _, ?_⟩
      cases created : verbs.device.createQp verbs.device.createQpCalls with
      | none =>
          refine Or.inr ⟨fun creates => ?_, rfl, Function.update_self _ _ _⟩
          cases creates.2
      | some qpNum => exact Or.inl ⟨⟨rfl, rfl⟩, rfl, Function.update_self _ _ _⟩

/-- Staging either succeeds for every peer or stops at the first one without a queue pair. -/
theorem stagePeers_spec (peers : List (Fin n)) (verbs : IBVerbs n) :
    Staging verbs (stagePeers peers verbs).1 ∧
      (∀ peer, peer ∉ peers →
        (stagePeers peers verbs).1.stagedQps peer = verbs.stagedQps peer) ∧
      (((stagePeers peers verbs).2 = none ∧
          ∀ peer ∈ peers, ((stagePeers peers verbs).1.stagedQps peer).isSome) ∨
        (stagePeers peers verbs).2 = some .badAlloc ∧ (verbs.device.BlocksFit →
          ∃ peer ∈ peers, (stagePeers peers verbs).1.stagedQps peer = none)) := by
  induction peers generalizing verbs with
  | nil => exact ⟨Staging.refl verbs, fun _ _ => rfl, Or.inl ⟨rfl, by simp⟩⟩
  | cons peer peers ih =>
      have staging := verbs.stageQp_staging peer
      rcases verbs.stageQp_cases peer with ⟨others, created⟩
      simp only [stagePeers]
      generalize verbs.stageQp peer = outcome at staging others created ⊢
      rcases outcome with ⟨staged, thrown⟩
      rcases created with ⟨creates, rfl, present⟩ | ⟨_, rfl, missing⟩
      · rcases ih staged with ⟨rest, same, ends⟩
        refine ⟨staging.trans rest, fun other notIn => ?_, ?_⟩
        · rw [List.mem_cons, not_or] at notIn
          rw [same other notIn.2, others other notIn.1]
        · rcases ends with ⟨succeeds, all⟩ | ⟨fails, missing⟩
          · refine Or.inl ⟨succeeds, fun other member => ?_⟩
            by_cases inRest : other ∈ peers
            · exact all other inRest
            · have at_ : other = peer := (List.mem_cons.mp member).resolve_right inRest
              rw [same other inRest, at_, present, Option.isSome_map]
              exact creates.2
          · refine Or.inr ⟨fails, fun fit => ?_⟩
            have fitRest : staged.device.BlocksFit := by
              rw [staging.device]
              exact fit
            rcases missing fitRest with ⟨other, member, none⟩
            exact ⟨other, List.mem_cons_of_mem _ member, none⟩
      · refine ⟨staging, fun other notIn => others other ?_, Or.inr ⟨rfl, fun fit => ?_⟩⟩
        · rintro rfl
          exact notIn List.mem_cons_self
        · exact ⟨peer, List.mem_cons_self, missing.trans (if_pos (fit _))⟩

/-- Staging for some peer asks for a queue pair at least once. -/
theorem createQpCalls_stagePeers (peers : List (Fin n)) (verbs : IBVerbs n) :
    verbs.device.createQpCalls + min 1 peers.length ≤
      (stagePeers peers verbs).1.device.createQpCalls := by
  induction peers generalizing verbs with
  | nil => simp [stagePeers]
  | cons peer peers ih =>
      have asked := verbs.createQpCalls_stageQp peer
      simp only [stagePeers, List.length_cons]
      generalize verbs.stageQp peer = outcome at asked ⊢
      rcases outcome with ⟨staged, _ | exn⟩
      · have := ih staged
        simp only at *
        omega
      · simp only at *
        omega

/-- A resize of the message queue tries to stage a queue pair for every peer. -/
theorem resizeMesgq_spec (verbs : IBVerbs n) (size : ℕ) :
    Staging verbs (verbs.resizeMesgq size).1 ∧
      verbs.device.createQpCalls + min 1 n ≤
        (verbs.resizeMesgq size).1.device.createQpCalls ∧
      (((verbs.resizeMesgq size).2 = none ∧ (verbs.resizeMesgq size).1.Staged) ∨
        (verbs.resizeMesgq size).2 = some .badAlloc ∧
          (verbs.device.BlocksFit → ¬(verbs.resizeMesgq size).1.Staged)) := by
  let sized : IBVerbs n := { verbs with cqSize := min size (verbs.device.maxSrs / 4) }
  have sizing : Staging verbs sized := ⟨rfl, rfl, rfl, rfl, rfl⟩
  have calls := createQpCalls_stagePeers (List.finRange n) sized
  rw [List.length_finRange] at calls
  rcases stagePeers_spec (List.finRange n) sized with ⟨staging, _, ends⟩
  simp only [resizeMesgq, stageQPs]
  generalize stagePeers (List.finRange n) sized = outcome at staging calls ends ⊢
  rcases outcome with ⟨staged, thrown⟩
  rcases ends with ⟨rfl, all⟩ | ⟨rfl, missing⟩
  · have growing : Staging staged { staged with
      postCount := max staged.postCount (min (sized.cqSize * n) (verbs.device.maxSrs / 4)) } :=
      ⟨rfl, rfl, rfl, rfl, rfl⟩
    exact ⟨(sizing.trans staging).trans growing, calls,
      Or.inl ⟨rfl, fun peer => all peer (List.mem_finRange peer)⟩⟩
  · refine ⟨sizing.trans staging, calls, Or.inr ⟨rfl, fun fit allStaged => ?_⟩⟩
    rcases missing fit with ⟨peer, _, none⟩
    have := allStaged peer
    simp only at none
    rw [none] at this
    cases this

end IBVerbs

namespace MemoryTable

/-- The two states agree on everything but memory slots that resizes and syncs look at. -/
structure SlotsOnly {n : ℕ} (before after : IBVerbs n) : Prop where
  sameStaged : after.stagedQps = before.stagedQps
  sameConnected : after.connectedQps = before.connectedQps
  sameRequest : after.syncRequest = before.syncRequest
  sameCached : after.syncCached = before.syncCached
  sameDevice : after.device = before.device

/-- Reserving memory changes the registers only; what waits to be registered keeps waiting. -/
theorem reserve_frame {n : ℕ} (faults : Faults) (table : MemoryTable) (verbs : IBVerbs n)
    (size : ℕ) :
    SlotsOnly verbs (table.reserve faults verbs size).1.2 ∧
      (table.reserve faults verbs size).1.1.added.empty = table.added.empty := by
  simp only [reserve, IBVerbs.resizeMemreg]
  generalize table.memreg.reserve faults.tableGlobal faults.tableLocal .null size = grown
  rcases grown with ⟨memreg, _ | exn⟩
  · simp only
    split_ifs
    · exact ⟨⟨rfl, rfl, rfl, rfl, rfl⟩, rfl⟩
    · exact ⟨⟨rfl, rfl, rfl, rfl, rfl⟩, SparseSet.empty_resize _ _⟩
    · exact ⟨⟨rfl, rfl, rfl, rfl, rfl⟩, SparseSet.empty_resize _ _⟩
    · generalize verbs.memreg.reserve faults.verbsGlobal faults.verbsLocal (.null n) size = slots
      rcases slots with ⟨slots, _ | exn⟩ <;>
        exact ⟨⟨rfl, rfl, rfl, rfl, rfl⟩, SparseSet.empty_resize _ _⟩
  · exact ⟨⟨rfl, rfl, rfl, rfl, rfl⟩, rfl⟩

end MemoryTable

namespace MessageQueue

variable {n : ℕ}

/-- The calls that resize a buffer, with the failures that they meet. -/
inductive Resize where
  | mesgQueue (nMsgs : ℕ)
  | memreg (faults : MemoryTable.Faults) (slotRange : Option Exn) (nRegs : ℕ)

def resize (queue : MessageQueue n) : Resize → MessageQueue n × Option Err
  | .mesgQueue nMsgs => queue.resizeMesgQueue nMsgs
  | .memreg faults slotRange nRegs => queue.resizeMemreg faults slotRange nRegs

/-- What no resize touches. -/
structure Undisturbed (before after : MessageQueue n) : Prop where
  sameConnected : after.ibverbs.connectedQps = before.ibverbs.connectedQps
  sameRequest : after.ibverbs.syncRequest = before.ibverbs.syncRequest
  sameCached : after.ibverbs.syncCached = before.ibverbs.syncCached
  device : after.ibverbs.device = { before.ibverbs.device with
    createQpCalls := after.ibverbs.device.createQpCalls }
  sameEmpty : after.memreg.added.empty = before.memreg.added.empty

/-- A resize that gets to stage queue pairs requests a reconnection.  If it fails, then some pair is
missing, unless the control block of a shared pointer is what could not be allocated. -/
structure Attempted (before after : MessageQueue n) (code : Option Err) : Prop where
  resized : after.resized = true
  calls : before.ibverbs.device.createQpCalls + min 1 n ≤ after.ibverbs.device.createQpCalls
  succeeds : code = some .success → after.ibverbs.Staged
  fails : code ≠ some .success → before.ibverbs.device.BlocksFit →
    ¬after.ibverbs.Staged

/-- Any other resize fails and changes neither. -/
structure Refused (before after : MessageQueue n) (code : Option Err) : Prop where
  sameResized : after.resized = before.resized
  sameStaged : after.ibverbs.stagedQps = before.ibverbs.stagedQps
  sameCalls : after.ibverbs.device.createQpCalls = before.ibverbs.device.createQpCalls
  fails : code ≠ some .success

theorem resizeMesgQueue_spec (queue : MessageQueue n) (nMsgs : ℕ) :
    Undisturbed queue (queue.resizeMesgQueue nMsgs).1 ∧
      (Attempted queue (queue.resizeMesgQueue nMsgs).1 (queue.resizeMesgQueue nMsgs).2 ∨
        Refused queue (queue.resizeMesgQueue nMsgs).1 (queue.resizeMesgQueue nMsgs).2) := by
  simp only [resizeMesgQueue]
  split
  next tooLarge =>
    exact ⟨⟨rfl, rfl, rfl, rfl, rfl⟩, Or.inr ⟨rfl, rfl, rfl, by simp⟩⟩
  next fits =>
    have spec := queue.ibverbs.resizeMesgq_spec nMsgs
    generalize queue.ibverbs.resizeMesgq nMsgs = outcome at spec ⊢
    rcases outcome with ⟨ibverbs, thrown⟩
    rcases spec with ⟨staging, calls, ⟨rfl, all⟩ | ⟨rfl, missing⟩⟩
    · exact ⟨⟨staging.sameConnected, staging.sameRequest, staging.sameCached, staging.device, rfl⟩,
        Or.inl ⟨rfl, calls, fun _ => all, fun failed => absurd rfl failed⟩⟩
    · exact ⟨⟨staging.sameConnected, staging.sameRequest, staging.sameCached, staging.device, rfl⟩,
        Or.inl ⟨rfl, calls, (fun succeeded => by cases succeeded), fun _ => missing⟩⟩

theorem Undisturbed.trans {before middle after : MessageQueue n} (first : Undisturbed before middle)
    (second : Undisturbed middle after) : Undisturbed before after := by
  refine ⟨second.sameConnected.trans first.sameConnected,
    second.sameRequest.trans first.sameRequest, second.sameCached.trans first.sameCached, ?_,
    second.sameEmpty.trans first.sameEmpty⟩
  have device := second.device
  rw [first.device] at device
  exact device

theorem reserveMemreg_frame (faults : MemoryTable.Faults) (slotRange : Option Exn)
    (queue : MessageQueue n) (size : ℕ) :
    MemoryTable.SlotsOnly queue.ibverbs (queue.reserveMemreg faults slotRange size).1.2 ∧
      (queue.reserveMemreg faults slotRange size).1.1.added.empty = queue.memreg.added.empty := by
  simp only [reserveMemreg]
  split
  · have reserved := queue.memreg.reserve_frame faults queue.ibverbs size
    generalize queue.memreg.reserve faults queue.ibverbs size = outcome at reserved ⊢
    rcases outcome with ⟨_, _ | exn⟩ <;> exact reserved
  · exact ⟨⟨rfl, rfl, rfl, rfl, rfl⟩, rfl⟩

/-- A resize of the memory register ends with one of the message queue unless it fails before. -/
theorem resizeMemreg_spec (faults : MemoryTable.Faults) (slotRange : Option Exn)
    (queue : MessageQueue n) (nRegs : ℕ) :
    Undisturbed queue (queue.resizeMemreg faults slotRange nRegs).1 ∧
      (Attempted queue (queue.resizeMemreg faults slotRange nRegs).1
          (queue.resizeMemreg faults slotRange nRegs).2 ∨
        Refused queue (queue.resizeMemreg faults slotRange nRegs).1
          (queue.resizeMemreg faults slotRange nRegs).2) := by
  simp only [resizeMemreg]
  split
  next tooLarge =>
    exact ⟨⟨rfl, rfl, rfl, rfl, rfl⟩, Or.inr ⟨rfl, rfl, rfl, by simp⟩⟩
  next fits =>
    have frame := reserveMemreg_frame faults slotRange queue (nRegs + 1)
    generalize queue.reserveMemreg faults slotRange (nRegs + 1) = grown at frame ⊢
    rcases grown with ⟨⟨memreg, ibverbs⟩, thrown⟩
    rcases frame with ⟨slotsOnly, sameEmpty⟩
    have device : ibverbs.device = queue.ibverbs.device := slotsOnly.sameDevice
    have growing : Undisturbed queue { queue with memreg := memreg, ibverbs := ibverbs } :=
      ⟨slotsOnly.sameConnected, slotsOnly.sameRequest, slotsOnly.sameCached,
        by simp only [device], sameEmpty⟩
    have sameCalls : ibverbs.device.createQpCalls = queue.ibverbs.device.createQpCalls := by
      rw [device]
    cases thrown with
    | some exn =>
        exact ⟨growing, Or.inr ⟨rfl, slotsOnly.sameStaged, sameCalls,
          by cases exn <;> simp [errorCode]⟩⟩
    | none =>
        have spec := resizeMesgQueue_spec
          { queue with memreg := memreg, ibverbs := ibverbs } queue.maxNMsgs
        generalize resizeMesgQueue { queue with memreg := memreg, ibverbs := ibverbs }
          queue.maxNMsgs = outcome at spec ⊢
        rcases outcome with ⟨resized, code⟩
        rcases spec with ⟨staging, attempt⟩
        have undisturbed := growing.trans staging
        -- only the return code of a failure differs from that of the message queue
        rcases attempt with attempted | refused
        · have calls := attempted.calls
          simp only [sameCalls] at calls
          have fails := attempted.fails
          simp only [device] at fails
          rcases code with _ | _ | _ | _
          · exact ⟨undisturbed, Or.inl ⟨attempted.resized, calls, attempted.succeeds, fails⟩⟩
          · exact ⟨⟨undisturbed.sameConnected, undisturbed.sameRequest, undisturbed.sameCached,
              undisturbed.device, undisturbed.sameEmpty⟩,
              Or.inl ⟨attempted.resized, calls, attempted.succeeds, fails⟩⟩
          · exact ⟨undisturbed, Or.inl ⟨attempted.resized, calls, attempted.succeeds, fails⟩⟩
          · exact ⟨undisturbed, Or.inl ⟨attempted.resized, calls,
              (fun succeeded => by cases succeeded), fun _ => fails (by simp)⟩⟩
        · have sameStaged := refused.sameStaged.trans slotsOnly.sameStaged
          have calls := refused.sameCalls.trans sameCalls
          rcases code with _ | _ | _ | _
          · exact ⟨undisturbed, Or.inr ⟨refused.sameResized, sameStaged, calls, by simp⟩⟩
          · exact absurd rfl refused.fails
          · exact ⟨undisturbed, Or.inr ⟨refused.sameResized, sameStaged, calls, by simp⟩⟩
          · exact ⟨undisturbed, Or.inr ⟨refused.sameResized, sameStaged, calls, by simp⟩⟩

/-- Everything that a resize does to what a later sync depends on. -/
theorem resize_spec (queue : MessageQueue n) (call : Resize) :
    Undisturbed queue (queue.resize call).1 ∧
      (Attempted queue (queue.resize call).1 (queue.resize call).2 ∨
        Refused queue (queue.resize call).1 (queue.resize call).2) := by
  cases call with
  | mesgQueue nMsgs => exact queue.resizeMesgQueue_spec nMsgs
  | memreg faults slotRange nRegs => exact resizeMemreg_spec faults slotRange queue nRegs

/-- A sync that is waited for: the next call of the process comes after its completion. -/
def superstep (pid : Fin n) (task : Task) (attr : SyncAttr) (queue : MessageQueue n) :
    Comm n (MessageQueue n × Except Exn Int) :=
  (queue.sync pid task false attr).bind fun (queue, result) =>
    match result with
    | .error exn => .done (queue, .error exn)
    | .ok aborted => queue.completeRequest.bind fun queue => .done (queue, .ok aborted)

/-- No registration is pending and no sync request is active. -/
structure Quiet (queue : MessageQueue n) : Prop where
  nothingAdded : queue.memreg.added.empty = true
  idle : queue.ibverbs.syncRequest.isActive = false

theorem initial_spec (device : Device n) :
    (initial device).Quiet ∧ (initial device).resized = false ∧
      (initial device).ibverbs.syncCached = false ∧
      (initial device).ibverbs.stagedQps = (fun _ => none) ∧
      (initial device).ibverbs.connectedQps = fun _ => none := by
  rcases MemoryTable.initial.reserve_frame .none (IBVerbs.initial device) 1 with
    ⟨slotsOnly, sameEmpty⟩
  exact ⟨⟨sameEmpty, congrArg SyncRequest.isActive slotsOnly.sameRequest⟩, rfl,
    slotsOnly.sameCached, slotsOnly.sameStaged, slotsOnly.sameConnected⟩

theorem Quiet.sync_eq {queue : MessageQueue n} (quiet : queue.Quiet) (pid : Fin n) (task : Task)
    (abort : Bool) (attr : SyncAttr) :
    queue.sync pid task abort attr = syncVerbs pid task queue abort attr := by
  simp only [sync, MemoryTable.sync, if_pos quiet.nothingAdded, Program.done_bind]

theorem superstep_eq (pid : Fin n) (task : Task) (attr : SyncAttr) {queue : MessageQueue n}
    (quiet : queue.Quiet) :
    queue.superstep pid task attr = (syncVerbs pid task queue false attr).bind
      fun (queue, result) =>
        match result with
        | .error exn => .done (queue, .error exn)
        | .ok aborted => queue.completeRequest.bind fun queue => .done (queue, .ok aborted) := by
  simp only [superstep, quiet.sync_eq]

/-- What a superstep without a reconnection leaves behind. -/
structure Concluded (attr : SyncAttr) (before after : MessageQueue n) : Prop where
  quiet : after.Quiet
  notResized : after.resized = false
  cached : after.ibverbs.syncCached = IBVerbs.cachedAfter attr.mode before.ibverbs.syncCached
  sameStaged : after.ibverbs.stagedQps = before.ibverbs.stagedQps
  sameConnected : after.ibverbs.connectedQps = before.ibverbs.connectedQps
  sameDevice : after.ibverbs.device = before.ibverbs.device

/-- What a superstep with a reconnection leaves behind. -/
structure Renewed (before after : MessageQueue n) : Prop where
  quiet : after.Quiet
  notResized : after.resized = false
  cached : after.ibverbs.syncCached = false
  noneStaged : after.ibverbs.stagedQps = fun _ => none
  connected : IBVerbs.qpNums after.ibverbs.connectedQps = IBVerbs.qpNums before.ibverbs.stagedQps
  device : after.ibverbs.device = { before.ibverbs.device with
    reconnects := before.ibverbs.device.reconnects + 1 }

/-- What a superstep leaves behind whose reconnection fails. -/
structure Unfinished (before after : MessageQueue n) : Prop where
  quiet : after.Quiet
  sameResized : after.resized = before.resized
  sameCached : after.ibverbs.syncCached = before.ibverbs.syncCached
  sameStaged : IBVerbs.qpNums after.ibverbs.stagedQps = IBVerbs.qpNums before.ibverbs.stagedQps
  sameConnected : after.ibverbs.connectedQps = before.ibverbs.connectedQps
  device : after.ibverbs.device = { before.ibverbs.device with
    reconnects := before.ibverbs.device.reconnects + 1 }

section Superstep

variable {queue : Fin n → MessageQueue n} {attr : SyncAttr}

theorem superstep_executes_plain (task : Fin n → Task) (quiet : ∀ p, (queue p).Quiet)
    (unseen : attr.mode = .default → ∀ p, (queue p).resized = false)
    (agree : ∀ p q, (queue p).ibverbs.syncCached = (queue q).ibverbs.syncCached) :
    ∃ (rounds : List (Fin n → Collective n)) (after : Fin n → MessageQueue n),
      (∀ p, Collective.kinds p rounds = plainKinds n attr.mode (queue p).ibverbs.syncCached ++
        if attr.barrier then [.ibarrier] else []) ∧
      Executes (fun p => (queue p).superstep p (task p) attr) rounds
        (fun p => (after p, .ok 0)) ∧
      ∀ p, Concluded attr (queue p) (after p) := by
  rcases syncVerbs_executes_plain task unseen (fun _ => agree)
    (fun p => (quiet p).idle) with ⟨first, middle, firstKinds, head, requested⟩
  rcases completeRequest_executes (fun p => (queue p).accepted (middle p)) requested
    with ⟨second, after, secondKinds, tail, same⟩
  simp only [superstep_eq _ _ _ (quiet _)]
  refine ⟨first ++ (second ++ []), fun p => (queue p).accepted (after p), fun p => ?_,
    head.bind (tail.bind (.of_done _)), fun p => ?_⟩
  · rw [Collective.kinds_append, List.append_nil, firstKinds p, secondKinds p]
  · rcases same p with ⟨idle, cached, staged, connected, _, device⟩
    exact ⟨⟨(quiet p).nothingAdded, idle⟩, rfl, cached.trans (requested p).cached,
      staged.trans (requested p).sameStaged, connected.trans (requested p).sameConnected,
      device.trans (requested p).sameDevice⟩

/-- If some process has resized, a superstep in the default mode reconnects or throws at all
processes. -/
theorem superstep_executes_resized (task : Fin n → Task) (quiet : ∀ p, (queue p).Quiet)
    (mode : attr.mode = .default) (resizes : ∃ p, (queue p).resized = true)
    (staged : ∀ p, (queue p).ibverbs.Staged) :
    (∃ (rounds : List (Fin n → Collective n)) (after : Fin n → MessageQueue n),
      (∀ p, Collective.kinds p rounds = resizedKinds n ++
        if attr.barrier then [.ibarrier] else []) ∧
      Executes (fun p => (queue p).superstep p (task p) attr) rounds
        (fun p => (after p, .ok 0)) ∧
      ∀ p, Renewed (queue p) (after p)) ∨
    ∃ (rounds : List (Fin n → Collective n)) (after : Fin n → MessageQueue n)
      (thrown : Fin n → Exn),
      Executes (fun p => (queue p).superstep p (task p) attr) rounds
        (fun p => (after p, .error (thrown p))) ∧
      ∀ p, Unfinished (queue p) (after p) := by
  simp only [superstep_eq _ _ _ (quiet _)]
  rcases syncVerbs_executes_resized task mode resizes (fun p => (quiet p).idle) staged with
    ⟨first, reconnected, middle, _, firstKinds, head, ended⟩ |
    ⟨first, after, thrown, _, head, interrupted⟩
  · left
    rcases completeRequest_executes (fun p => (queue p).accepted (middle p))
      (fun p => (ended p).2) with ⟨second, after, secondKinds, tail, same⟩
    refine ⟨first ++ (second ++ []), fun p => (queue p).accepted (after p), fun p => ?_,
      head.bind (tail.bind (.of_done _)), fun p => ?_⟩
    · rw [Collective.kinds_append, List.append_nil, firstKinds p, secondKinds p]
    · rcases same p with ⟨idle, cached, staged, connected, _, device⟩
      rcases ended p with ⟨reconnects, requested⟩
      refine ⟨⟨(quiet p).nothingAdded, idle⟩, rfl, ?_, ?_, ?_, ?_⟩
      · exact cached.trans (requested.cached.trans (by rw [mode]; rfl))
      · exact staged.trans (requested.sameStaged.trans reconnects.staged)
      · exact (congrArg IBVerbs.qpNums (connected.trans requested.sameConnected)).trans
          reconnects.connected
      · exact device.trans (requested.sameDevice.trans reconnects.reconnects)
  · right
    refine ⟨first ++ [], fun p => { queue p with ibverbs := after p }, thrown,
      head.bind (.of_done _), fun p => ?_⟩
    have stopped := interrupted p
    exact ⟨⟨(quiet p).nothingAdded, (congrArg SyncRequest.isActive stopped.sameRequest).trans
      (quiet p).idle⟩, rfl, stopped.sameCached, stopped.sameStaged, stopped.sameConnected,
      stopped.reconnects⟩

end Superstep

end MessageQueue

end Talpf
