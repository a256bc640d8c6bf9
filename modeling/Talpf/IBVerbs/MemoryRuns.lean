import Talpf.IBVerbs.RemoteMemory

/-!
# Runs with a memory

The work requests of a put or a get have exactly the bytes that it asks for.  In a
run of default syncs the counters are those of a run without a memory, and a
process in its sync has no operation at the device.
-/

namespace Talpf

open Copying

variable {n : ℕ}

namespace SendWr

variable {pid peer : Fin n} {request : SendWr} {copy : Address n × Address n}

theorem mem_copies_write
    (isWrite : request.opcode = .rdmaWrite ∨ request.opcode = .rdmaWriteWithImm) :
    copy ∈ request.copies pid peer ↔ ∃ i < request.sge.length,
      copy = ((pid, request.sge.addr + i), (peer, request.remoteAddr + i)) := by
  rw [copies, List.mem_filterMap]
  rcases isWrite with opcode | opcode <;>
    simp only [opcode, List.mem_range, Option.some.injEq, eq_comm]

theorem mem_copies_read (isRead : request.opcode = .rdmaRead) :
    copy ∈ request.copies pid peer ↔ ∃ i < request.sge.length,
      copy = ((peer, request.remoteAddr + i), (pid, request.sge.addr + i)) := by
  rw [copies, List.mem_filterMap]
  simp only [isRead, List.mem_range, Option.some.injEq, eq_comm]

end SendWr

namespace IBVerbs

/-- The segments of an area have its bytes. -/
theorem Segmentation.exists_iff {maxMsgSize localAddr remoteAddr size : ℕ}
    {requests : List SendWr}
    (covers : Segmentation maxMsgSize localAddr remoteAddr size requests) (holds : ℕ → ℕ → Prop) :
    (∃ request ∈ requests, ∃ i < request.sge.length,
      holds (request.sge.addr + i) (request.remoteAddr + i)) ↔
    ∃ i < size, holds (localAddr + i) (remoteAddr + i) := by
  induction requests generalizing localAddr remoteAddr size with
  | nil =>
      have empty : size = 0 := covers.total.symm
      simp [empty]
  | cons first rest ih =>
      have localFirst := covers.localAddr 0 first rfl
      have remoteFirst := covers.remoteAddr 0 first rfl
      have total := covers.total
      rw [totalLength_cons] at total
      simp only [List.take_zero, totalLength, List.map_nil, List.sum_nil, Nat.add_zero]
        at localFirst remoteFirst
      have others : Segmentation maxMsgSize (localAddr + first.sge.length)
          (remoteAddr + first.sge.length) (totalLength rest) rest :=
        { localAddr := by
            intro k request entry
            rw [covers.localAddr (k + 1) request entry, List.take_succ_cons, totalLength_cons,
              Nat.add_assoc]
          remoteAddr := by
            intro k request entry
            rw [covers.remoteAddr (k + 1) request entry, List.take_succ_cons, totalLength_cons,
              Nat.add_assoc]
          total := rfl
          bounded := fun request member => covers.bounded request (List.mem_cons_of_mem _ member)
          numSge := fun request member => covers.numSge request (List.mem_cons_of_mem _ member) }
      rw [List.exists_mem_cons_iff, ih others, localFirst, remoteFirst]
      constructor
      · rintro (⟨i, within, isHeld⟩ | ⟨i, within, isHeld⟩)
        · exact ⟨i, by omega, isHeld⟩
        · exact ⟨first.sge.length + i, by omega, by simpa only [Nat.add_assoc] using isHeld⟩
      · rintro ⟨i, within, isHeld⟩
        by_cases early : i < first.sge.length
        · exact Or.inl ⟨i, early, isHeld⟩
        · refine Or.inr ⟨i - first.sge.length, by omega, ?_⟩
          have same : first.sge.length + (i - first.sge.length) = i := by omega
          rw [Nat.add_assoc, Nat.add_assoc, same]
          exact isHeld

theorem opcode_putRequest (pid : Fin n) (verbs : IBVerbs n) (task : Task) (src dst : MemorySlot n)
    (mr : Mr) (dstPid : Fin n) (lastMsg : Bool) (srcOffset dstOffset length : ℕ) :
    (putRequest pid verbs task src dst mr dstPid lastMsg srcOffset dstOffset length).opcode =
        .rdmaWrite ∨
      (putRequest pid verbs task src dst mr dstPid lastMsg srcOffset dstOffset length).opcode =
        .rdmaWriteWithImm := by
  cases lastMsg with
  | false => exact Or.inl rfl
  | true => exact Or.inr rfl

/-- The device moves exactly the bytes that a put or a get asks for. -/
theorem Operation.mem_copies {op : Operation n} (noAtomic : ¬op.IsAtomic) {pid : Fin n}
    {verbs : IBVerbs n} {maxMsgSize : ℕ} (positive : 0 < maxMsgSize)
    (device : maxMsgSize < 2 ^ 32) {task : Task} {requests : List SendWr}
    (posted : op.requests pid verbs maxMsgSize task = some requests)
    (copy : Address n × Address n) :
    copy ∈ requests.flatMap (SendWr.copies pid op.peer) ↔ copy ∈ op.copies pid verbs.memreg := by
  rw [List.mem_flatMap]
  cases op with
  | put srcSlot srcOffset dstPid dstSlot dstOffset size =>
      rcases putRequests_cases posted with ⟨src, dst, mr, foundSrc, foundDst, _, rfl⟩
      have segments := putSegments pid dstPid verbs src dst mr positive device task srcOffset
        dstOffset size rfl
      have bytes : ∀ request ∈ IBVerbs.segments maxMsgSize
          (putRequest pid verbs task src dst mr dstPid)
          (if size = 0 then 1 else segmentCount maxMsgSize size) srcOffset dstOffset size,
          (copy ∈ request.copies pid dstPid ↔ ∃ i < request.sge.length,
            copy = ((pid, request.sge.addr + i), (dstPid, request.remoteAddr + i))) := by
        intro request member
        rcases List.mem_iff_getElem?.mp member with ⟨k, entry⟩
        rcases getElem?_segments entry with ⟨_, _, _, rfl⟩
        exact SendWr.mem_copies_write (opcode_putRequest ..)
      have areas := segments.1.exists_iff fun near far => copy = ((pid, near), (dstPid, far))
      simp only [Operation.copies, Operation.addresses, Operation.near, Operation.far,
        Operation.peer, Operation.size, Operation.kind, foundSrc, foundDst, Option.some.injEq,
        Prod.mk.injEq, Set.mem_ofPred_eq]
      constructor
      · rintro ⟨request, member, among⟩
        rcases areas.mp ⟨request, member, (bytes request member).mp among⟩ with ⟨i, within, same⟩
        exact ⟨_, _, ⟨rfl, rfl⟩, i, within, same⟩
      · rintro ⟨near, far, ⟨rfl, rfl⟩, i, within, same⟩
        rcases areas.mpr ⟨i, within, same⟩ with ⟨request, member, among⟩
        exact ⟨request, member, (bytes request member).mpr among⟩
  | get srcPid srcSlot srcOffset dstSlot dstOffset size =>
      rcases getRequests_cases posted with ⟨src, dst, mr, foundSrc, foundDst, _, rfl⟩
      have segments := getSegments pid srcPid src dst mr positive device dstOffset srcOffset size
      have bytes : ∀ request ∈ IBVerbs.segments maxMsgSize (getRequest pid src dst mr srcPid)
          (segmentCount maxMsgSize size) dstOffset srcOffset size,
          (copy ∈ request.copies pid srcPid ↔ ∃ i < request.sge.length,
            copy = ((srcPid, request.remoteAddr + i), (pid, request.sge.addr + i))) := by
        intro request member
        rcases List.mem_iff_getElem?.mp member with ⟨k, entry⟩
        rcases getElem?_segments entry with ⟨_, _, _, rfl⟩
        exact SendWr.mem_copies_read rfl
      have areas := segments.1.exists_iff fun near far => copy = ((srcPid, far), (pid, near))
      simp only [Operation.copies, Operation.addresses, Operation.near, Operation.far,
        Operation.peer, Operation.size, Operation.kind, foundSrc, foundDst, Option.some.injEq,
        Prod.mk.injEq, Set.mem_ofPred_eq, List.mem_append, List.mem_singleton]
      constructor
      · rintro ⟨request, member | rfl, among⟩
        · rcases areas.mp ⟨request, member, (bytes request member).mp among⟩ with
            ⟨i, within, same⟩
          exact ⟨_, _, ⟨rfl, rfl⟩, i, within, same⟩
        · -- the last request has no bytes
          rcases (SendWr.mem_copies_write (Or.inr rfl)).mp among with ⟨i, within, _⟩
          exact absurd within (Nat.not_lt_zero i)
      · rintro ⟨near, far, ⟨rfl, rfl⟩, i, within, same⟩
        rcases areas.mpr ⟨i, within, same⟩ with ⟨request, member, among⟩
        exact ⟨request, Or.inl member, (bytes request member).mpr among⟩
  | atomicFetchAndAdd => exact absurd trivial noAtomic
  | atomicCmpAndSwp => exact absurd trivial noAtomic

namespace Party

variable {party after : Party n}

/-- A process in a sync has no operation at the device. -/
structure Calm (party : Party n) : Prop where
  idle : party.verbs.syncRequest.isActive = true → party.phase = .idle
  outstanding : ¬party.Computing → party.outstanding = 0

theorem computing_congr (phase : after.phase = party.phase)
    (isActive : after.verbs.syncRequest.isActive = party.verbs.syncRequest.isActive) :
    after.Computing ↔ party.Computing := by
  rw [Computing, Computing, phase, isActive]

theorem Calm.congr (calm : party.Calm) (phase : after.phase = party.phase)
    (isActive : after.verbs.syncRequest.isActive = party.verbs.syncRequest.isActive)
    (outstanding : party.outstanding = 0 → after.outstanding = 0) : after.Calm where
  idle := by
    rw [phase, isActive]
    exact calm.idle
  outstanding := by
    rw [computing_congr phase isActive]
    exact fun other => outstanding (calm.outstanding other)

theorem not_computing_of_phase (other : party.phase ≠ .idle) : ¬party.Computing :=
  fun computing => other computing.1

theorem not_computing_of_active (active : party.verbs.syncRequest.isActive = true) :
    ¬party.Computing := by
  intro computing
  rw [computing.2] at active
  exact Bool.false_ne_true active

/-- Reading the counts does not end the sync, and leaves the request and the device alone. -/
theorem readCounts_busy (party : Party n) (task : Task) (attr : SyncAttr) :
    (party.readCounts task attr).phase ≠ .idle ∧
      (party.readCounts task attr).verbs.syncRequest = party.verbs.syncRequest ∧
      (party.readCounts task attr).outstanding = party.outstanding := by
  rw [Party.readCounts]
  split
  · split
    · exact ⟨by simp, rfl, rfl⟩
    · exact ⟨by simp, rfl, rfl⟩
  all_goals exact ⟨by simp, rfl, rfl⟩

theorem request_busy {task : Task} {barrier : Bool} {remoteMsgs : Int}
    (accepted : party.request task barrier remoteMsgs = some after) :
    after.phase = .idle ∧ after.verbs.syncRequest.isActive = true ∧
      after.outstanding = party.outstanding ∧ after.superstep = party.superstep := by
  rcases Option.map_eq_some_iff.mp accepted with ⟨verbs, requests, rfl⟩
  rw [requestSync] at requests
  split at requests
  next => cases requests
  next =>
    rw [Option.some.injEq] at requests
    subst requests
    exact ⟨rfl, rfl, rfl, rfl⟩

theorem look_outstanding {flag : Bool} (processed : party.processSyncRequest flag = some after) :
    after.outstanding = party.outstanding := by
  rw [processSyncRequest] at processed
  split at processed
  next => cases processed; rfl
  next => cases processed; rfl
  next => cases processed; rfl
  next => cases processed

/-- A look at the request completes it or leaves it active. -/
theorem look_active {flag : Bool} (active : party.verbs.syncRequest.isActive = true)
    (processed : party.processSyncRequest flag = some after) :
    (after.superstep = party.superstep ∧ after.verbs.syncRequest.isActive = true) ∨
      (after.superstep = party.superstep + 1 ∧ after.verbs.syncRequest.isActive = false) := by
  rw [processSyncRequest] at processed
  rcases look_cases party.verbs flag with waits | faults | ⟨_, finishes⟩ |
    ⟨_, _, _, _, ⟨_, starts⟩ | ⟨_, releases⟩⟩
  · rw [waits, Option.some.injEq] at processed
    subst processed
    exact Or.inl ⟨rfl, active⟩
  · rw [faults] at processed
    cases processed
  · rw [finishes, Option.some.injEq] at processed
    subst processed
    exact Or.inr ⟨rfl, rfl⟩
  · rw [starts, Option.some.injEq] at processed
    subst processed
    exact Or.inl ⟨rfl, active⟩
  · rw [releases, Option.some.injEq] at processed
    subst processed
    exact Or.inr ⟨rfl, rfl⟩

/-- Only a sync that begins and a look that completes one change who computes. -/
theorem Moves.computing {p : Fin n} {action : World.Action n} (moves : party.Moves p action after)
    (stays : after.superstep = party.superstep)
    (begins : ∀ task attr, action ≠ .drain p task attr) : after.Computing ↔ party.Computing := by
  cases moves with
  | post task kind peer =>
      rw [Party.post, OperationKind.post_eq]
      exact computing_congr rfl rfl
  | remoteProgress wcs =>
      rw [doRemoteProgress_eq]
      exact computing_congr rfl rfl
  | drain _ task attr => exact absurd rfl (begins task attr)
  | @readCounts task attr drained =>
      apply iff_of_false (not_computing_of_phase (readCounts_busy party task attr).1)
      apply not_computing_of_phase
      rw [drained]
      simp
  | @exchange task attr counts counted remoteMsgs =>
      apply iff_of_false (not_computing_of_phase (by simp [Party.exchanged]))
      apply not_computing_of_phase
      rw [counted]
      simp
  | request ready accepted =>
      apply iff_of_false (not_computing_of_active (request_busy accepted).2.1)
      apply not_computing_of_phase
      rw [ready]
      simp
  | processSyncRequest active processed =>
      rcases look_active active processed with ⟨_, still⟩ | ⟨next, _⟩
      · exact iff_of_false (not_computing_of_active still) (not_computing_of_active active)
      · omega
  | _ => exact computing_congr rfl rfl

theorem Moves.calm {p : Fin n} {action : World.Action n} (moves : party.Moves p action after)
    (calm : party.Calm)
    (posts : ∀ task kind peer, action = .post p task kind peer → party.Computing)
    (begins : ∀ task attr, action = .drain p task attr →
      party.verbs.syncRequest.isActive = false ∧ party.outstanding = 0) : after.Calm := by
  cases moves with
  | post task kind peer =>
      have computing := posts task kind peer rfl
      rw [Party.post, OperationKind.post_eq]
      exact ⟨calm.idle, fun other => absurd computing other⟩
  | complete first =>
      refine calm.congr rfl rfl fun none => ?_
      rw [first] at none
      exact absurd none (Multiset.cons_ne_zero)
  | remoteProgress wcs =>
      rw [doRemoteProgress_eq]
      exact calm.congr rfl rfl id
  | drain _ task attr =>
      rcases begins task attr rfl with ⟨inactive, none⟩
      refine ⟨fun active => ?_, fun _ => none⟩
      rw [inactive] at active
      exact absurd active Bool.false_ne_true
  | @readCounts task attr drained =>
      rcases readCounts_busy party task attr with ⟨_, request, outstanding⟩
      have other : party.phase ≠ .idle := by
        rw [drained]
        simp
      refine ⟨fun active => ?_, fun _ => ?_⟩
      · rw [request] at active
        exact absurd (calm.idle active) other
      · rw [outstanding]
        exact calm.outstanding (not_computing_of_phase other)
  | @exchange task attr counts counted remoteMsgs =>
      have other : party.phase ≠ .idle := by
        rw [counted]
        simp
      exact ⟨fun active => absurd (calm.idle active) other,
        fun _ => calm.outstanding (not_computing_of_phase other)⟩
  | request ready accepted =>
      rcases request_busy accepted with ⟨idle, _, outstanding, _⟩
      refine ⟨fun _ => idle, fun _ => ?_⟩
      rw [outstanding]
      apply calm.outstanding
      apply not_computing_of_phase
      rw [ready]
      simp
  | processSyncRequest active processed =>
      have none := calm.outstanding (not_computing_of_active active)
      refine ⟨fun _ => (phase_processSyncRequest processed).trans (calm.idle active), fun _ => ?_⟩
      rw [look_outstanding processed, none]
  | _ => exact calm.congr rfl rfl id

end Party

namespace World

variable {world after : World n} {action : Action n}

/-- Processes post and begin syncs only while they compute. -/
def Timely (world : World n) : Action n → Prop
  | .post pid _ _ _ | .drain pid _ _ => (world.parties pid).Computing
  | _ => True

theorem timely_other (noPost : ∀ pid task kind peer, action ≠ .post pid task kind peer)
    (noDrain : ∀ pid task attr, action ≠ .drain pid task attr) : world.Timely action := by
  cases action with
  | post pid task kind peer => exact absurd rfl (noPost pid task kind peer)
  | drain pid task attr => exact absurd rfl (noDrain pid task attr)
  | _ => exact trivial

theorem superstep_step (taken : Step world action after)
    (other : ∀ pid flag, action ≠ .processSyncRequest pid flag) (p : Fin n) :
    (after.parties p).superstep = (world.parties p).superstep := by
  rcases (taken.moves p).superstep_cases with same | ⟨flag, isLook, _⟩
  · exact same
  · exact absurd isLook (other p flag)

theorem calm_step (tracked : world.Tracked) (calm : ∀ p, (world.parties p).Calm)
    (timely : world.Timely action) (taken : Step world action after) (p : Fin n) :
    (after.parties p).Calm := by
  apply (taken.moves p).calm (calm p)
  · rintro task kind peer rfl
    exact timely
  · rintro task attr rfl
    refine ⟨timely.2, ?_⟩
    -- a sync begins when no operation is left
    have numMsgs := (tracked.parties p).conserved.numMsgs
    have complete := taken.2.1
    rw [Party.unpolled, Multiset.card_add] at numMsgs
    rw [← Multiset.card_eq_zero]
    omega

end World

namespace Fabric

variable {maxMsgSize : ℕ} {tables : Fin n → CombinedMemoryRegister (MemorySlot n)}
  {rule : Set (Address n × Address n) → Prop} {devices : Fin n → Device n}
  {memory : Address n → UInt8} {before fabric after : Fabric n}
  {action : Action n}

/-- What an action means for the counters -/
theorem world_cases (permitted : Permitted tables rule before action)
    (taken : Step maxMsgSize tables before action after) : after.world = before.world ∨
      ∃ worldAction, before.world.Defaults worldAction ∧ before.world.Timely worldAction ∧
        World.Step before.world worldAction after.world := by
  cases action with
  | read pid address value => exact Or.inl (taken.2 ▸ rfl)
  | write pid address value =>
      rw [taken]
      exact Or.inl rfl
  | post pid task op =>
      rcases taken with ⟨_, _, step, _⟩
      exact Or.inr ⟨.post pid task op.kind op.peer,
        ⟨⟨Or.inl permitted.1.1, permitted.1.2⟩, trivial, trivial, permitted.2.2.1⟩, permitted.1,
        step⟩
  | enter pid task attr =>
      have computing : (before.world.parties pid).Computing := ⟨taken.1.1, permitted.1⟩
      exact Or.inr ⟨.drain pid task attr, ⟨trivial, permitted.2, trivial, trivial⟩, computing,
        taken.1⟩
  | leave pid flag =>
      exact Or.inr ⟨.processSyncRequest pid flag, ⟨trivial, trivial, permitted, trivial⟩, trivial,
        taken.1⟩
  | fetch item =>
      rcases taken with ⟨_, _, _, _, same, _⟩
      exact Or.inl same
  | store item =>
      rcases taken with ⟨_, _, _, _, _, same, _⟩
      exact Or.inl same
  | other worldAction =>
      rcases taken with ⟨step, noPost, noDrain, _⟩
      refine Or.inr ⟨_, ?_, World.timely_other noPost noDrain, step⟩
      cases worldAction with
      | post pid task kind peer => exact absurd rfl (noPost pid task kind peer)
      | drain pid task attr => exact absurd rfl (noDrain pid task attr)
      | _ => exact ⟨trivial, trivial, permitted, trivial⟩

theorem reachable_world
    (run : Transition.Reachable (Step maxMsgSize tables) (Permitted tables rule)
      (initial devices memory) fabric) :
    World.Reachable devices World.Defaults fabric.world ∧
      ∀ p, (fabric.world.parties p).Calm := by
  apply run.invariant
  · exact ⟨.refl, fun _ => ⟨fun _ => rfl, fun _ => rfl⟩⟩
  · rintro before action after ⟨reached, calm⟩ permitted taken
    rcases world_cases permitted taken with same | ⟨worldAction, allowed, timely, step⟩
    · rw [same]
      exact ⟨reached, calm⟩
    · exact ⟨reached.tail allowed step, World.calm_step (World.Reachable.tracked reached) calm
        timely step⟩

end Fabric

end IBVerbs

end Talpf
