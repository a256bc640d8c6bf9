import Talpf.IBVerbs.Continuations
import Talpf.IBVerbs.Expectations

/-!
# Bulk synchrony of default syncs

Puts and gets of default syncs are a bulk-synchronous machine: whatever the device
does in which order, users see what they would see if all copies of a superstep
were carried out at once when the last process has entered its sync.  When the
first process leaves its sync, all processes are inside of theirs, their gets are
complete and all puts have been notified, so that nothing is left to copy.
-/

namespace Talpf

open Copying

variable {n : ℕ}

namespace IBVerbs

/-- Where a process stands in the machine that is in superstep `superstep` -/
def Party.Stands (party : Party n) (superstep : ℕ) : Bulk.Status → Prop
  | .computing => party.Computing ∧ party.superstep = superstep
  | .entered => ¬party.Computing ∧ party.superstep = superstep
  | .released => ¬party.Computing ∧ party.superstep + 1 = superstep

namespace Fabric

variable {maxMsgSize : ℕ} {tables : Fin n → CombinedMemoryRegister (MemorySlot n)}
  {rule : Set (Address n × Address n) → Prop} {devices : Fin n → Device n}
  {memory : Address n → UInt8} {before fabric after : Fabric n}
  {action : Action n} {state : Bulk.State (Fin n) (Address n) UInt8}

/-- What the device has to do -/
def todo (fabric : Fabric n) : Set (Transfer (Address n) UInt8) :=
  {transfer | ∃ item ∈ fabric.pending, item.transfer = transfer}

/-- The processes and the device are a state of the machine. -/
structure Mirrors (fabric : Fabric n) (state : Bulk.State (Fin n) (Address n) UInt8) :
    Prop where
  stands : ∀ p, (fabric.world.parties p).Stands state.superstep (state.status p)
  requested : fabric.requested state.superstep = state.requests
  later : ∀ superstep, state.superstep < superstep → fabric.requested superstep = ∅
  apart : Apart state.requests
  underway : Underway state.requests fabric.todo state.memory fabric.memory
  recent : ∀ item ∈ fabric.pending, item.op.superstep ≤ state.superstep
  /-- Processes are released when another one has left. -/
  attained : ∀ p, state.status p = .released →
    ∃ q, (fabric.world.parties q).superstep = state.superstep

namespace Mirrors

theorem computing (mirrors : fabric.Mirrors state) {p : Fin n}
    (computing : (fabric.world.parties p).Computing) :
    state.status p = .computing ∧ (fabric.world.parties p).superstep = state.superstep := by
  have stands := mirrors.stands p
  cases status : state.status p <;> rw [status] at stands
  · exact ⟨rfl, stands.2⟩
  · exact absurd computing stands.1
  · exact absurd computing stands.1

theorem requests (mirrors : fabric.Mirrors state) {p : Fin n}
    (computing : (fabric.world.parties p).Computing) : fabric.requests p = state.requests := by
  rw [Fabric.requests, (mirrors.computing computing).2, mirrors.requested]

theorem initial (devices : Fin n → Device n) (memory : Address n → UInt8) :
    (Fabric.initial devices memory).Mirrors (Bulk.machine rule memory).start where
  stands _ := ⟨⟨rfl, rfl⟩, rfl⟩
  requested := rfl
  later _ _ := rfl
  apart := apart_empty
  underway := by
    have nothing : (Fabric.initial devices memory).todo = ∅ := by
      ext transfer
      simp [todo, Fabric.initial]
    rw [nothing]
    exact .start memory
  recent _ member := absurd member List.not_mem_nil
  attained _ released := Bulk.Status.noConfusion released

/-- What neither ends a superstep nor begins a sync -/
theorem quiet (mirrors : fabric.Mirrors state)
    (computing : ∀ p, (after.world.parties p).Computing ↔ (fabric.world.parties p).Computing)
    (superstep : ∀ p, (after.world.parties p).superstep = (fabric.world.parties p).superstep)
    (sameMemory : after.memory = fabric.memory) (pending : after.pending = fabric.pending)
    (requested : after.requested = fabric.requested) : after.Mirrors state where
  stands p := by
    have stands := mirrors.stands p
    cases status : state.status p <;> rw [status] at stands <;>
      exact ⟨by rw [computing]; exact stands.1, by rw [superstep]; exact stands.2⟩
  requested := requested ▸ mirrors.requested
  later := requested ▸ mirrors.later
  apart := mirrors.apart
  underway := by
    rw [todo, sameMemory, pending]
    exact mirrors.underway
  recent := pending ▸ mirrors.recent
  attained := by
    intro p released
    rcases mirrors.attained p released with ⟨q, same⟩
    exact ⟨q, (superstep q).trans same⟩

theorem write (mirrors : fabric.Mirrors state) {place : Address n} {value : UInt8}
    (noSource : ¬Source state.requests place) (noTarget : ¬Target state.requests place) :
    Mirrors { fabric with memory := Function.update fabric.memory place value }
      { state with memory := Function.update state.memory place value } where
  stands := mirrors.stands
  requested := mirrors.requested
  later := mirrors.later
  apart := mirrors.apart
  underway := mirrors.underway.write noSource noTarget
  recent := mirrors.recent
  attained := mirrors.attained

/-- The work list with one item replaced -/
theorem recent_replace (mirrors : fabric.Mirrors state) (others : List (Pending n))
    {earlier later : List (Pending n)} {item : Pending n}
    (listed : fabric.pending = earlier ++ item :: later)
    (same : ∀ other ∈ others, other.op = item.op) :
    ∀ other ∈ earlier ++ (others ++ later), other.op.superstep ≤ state.superstep := by
  have recent := mirrors.recent
  rw [listed] at recent
  intro other member
  rcases List.mem_append.mp member with among | among
  · exact recent other (List.mem_append.mpr (Or.inl among))
  · rcases List.mem_append.mp among with new | among
    · rw [same other new]
      exact recent item (by simp)
    · exact recent other (by simp [among])

end Mirrors

/-- What the work list turns into when one item is replaced -/
theorem mem_todo_replace (others : List (Pending n)) {earlier later : List (Pending n)}
    {item : Pending n}
    (listed : fabric.pending = earlier ++ item :: later)
    (pending : after.pending = earlier ++ (others ++ later)) :
    (∀ transfer ∈ after.todo, transfer ∈ fabric.todo ∨
      ∃ other ∈ others, other.transfer = transfer) ∧
    (∀ transfer ∈ fabric.todo, transfer ≠ item.transfer → transfer ∈ after.todo) ∧
    (∀ other ∈ others, other.transfer ∈ after.todo) ∧ item.transfer ∈ fabric.todo := by
  simp only [todo, Set.mem_ofPred_eq, listed, pending]
  refine ⟨?_, ?_, ?_, ⟨item, by simp, rfl⟩⟩
  · rintro transfer ⟨other, member, rfl⟩
    rcases List.mem_append.mp member with among | among
    · exact Or.inl ⟨other, by simp [among], rfl⟩
    · rcases List.mem_append.mp among with new | among
      · exact Or.inr ⟨other, new, rfl⟩
      · exact Or.inl ⟨other, by simp [among], rfl⟩
  · rintro transfer ⟨other, member, rfl⟩ notItem
    refine ⟨other, ?_, rfl⟩
    rcases List.mem_append.mp member with among | among
    · simp [among]
    · rcases List.mem_cons.mp among with rfl | among
      · exact absurd rfl notItem
      · simp [among]
  · intro other member
    exact ⟨other, by simp [member], rfl⟩

/-- What the work list turns into when an operation is posted -/
theorem todo_post {pid : Fin n} {op : Operation n} {posted : Posted n} {requests : List SendWr}
    (bytes : ∀ copy, copy ∈ requests.flatMap (SendWr.copies pid posted.peer) ↔
      copy ∈ op.copies pid (tables pid))
    (pending : after.pending = fabric.pending ++ transfers pid op.kind posted requests) :
    after.todo = fabric.todo ∪
      {transfer | ∃ copy ∈ op.copies pid (tables pid), transfer = ⟨copy.1, copy.2, none⟩} := by
  ext transfer
  simp only [todo, pending, transfers, Set.mem_union, Set.mem_ofPred_eq, List.mem_append,
    List.mem_map]
  constructor
  · rintro ⟨item, old | ⟨copy, among, rfl⟩, rfl⟩
    · exact Or.inl ⟨item, old, rfl⟩
    · exact Or.inr ⟨copy, (bytes copy).mp among, rfl⟩
  · rintro (⟨item, old, rfl⟩ | ⟨copy, among, rfl⟩)
    · exact ⟨item, Or.inl old, rfl⟩
    · exact ⟨_, Or.inr ⟨copy, (bytes copy).mpr among, rfl⟩, rfl⟩

namespace Mirrors

theorem fetch (mirrors : fabric.Mirrors state) {item : Pending n}
    (taken : Step maxMsgSize tables fabric (.fetch item) after) : after.Mirrors state := by
  rcases taken with ⟨earlier, later, listed, _, world, sameMemory, pending, requested⟩
  let fetched : Pending n := { item with transfer :=
    { item.transfer with fetched := some (fabric.memory item.transfer.source) } }
  rcases mem_todo_replace [fetched] listed pending with ⟨fewer, kept, now, member⟩
  have underway : Underway state.requests after.todo state.memory fabric.memory :=
    mirrors.underway.fetch mirrors.apart member
      (fun other among => (fewer other among).imp_right fun ⟨_, new, same⟩ =>
        same ▸ List.mem_singleton.mp new ▸ rfl)
      kept (now fetched (List.mem_singleton_self _))
  exact
    { stands := world ▸ mirrors.stands
      requested := requested ▸ mirrors.requested
      later := requested ▸ mirrors.later
      apart := mirrors.apart
      underway := sameMemory ▸ underway
      recent := pending ▸ mirrors.recent_replace [fetched] listed fun other new =>
        List.mem_singleton.mp new ▸ rfl
      attained := world ▸ mirrors.attained }

theorem store (mirrors : fabric.Mirrors state) {item : Pending n}
    (taken : Step maxMsgSize tables fabric (.store item) after) : after.Mirrors state := by
  rcases taken with ⟨earlier, later, value, listed, fetched, world, stored, pending, requested⟩
  rcases mem_todo_replace [] listed pending with ⟨fewer, kept, _, member⟩
  have underway : Underway state.requests after.todo state.memory
      (Function.update fabric.memory item.transfer.target value) :=
    mirrors.underway.put member fetched
      (fun other among => (fewer other among).resolve_right fun ⟨_, isNone, _⟩ =>
        absurd isNone List.not_mem_nil)
      kept
  exact
    { stands := world ▸ mirrors.stands
      requested := requested ▸ mirrors.requested
      later := requested ▸ mirrors.later
      apart := mirrors.apart
      underway := stored ▸ underway
      recent := pending ▸ mirrors.recent_replace [] listed fun other none =>
        absurd none List.not_mem_nil
      attained := world ▸ mirrors.attained }

/-- An operation with all its bytes -/
theorem post (mirrors : fabric.Mirrors state)
    (separates : ∀ pattern, rule pattern → Apart pattern) (positive : 0 < maxMsgSize)
    (device : maxMsgSize < 2 ^ 32) {pid : Fin n} {task : Task} {op : Operation n}
    (permitted : Permitted tables rule fabric (.post pid task op))
    (taken : Step maxMsgSize tables fabric (.post pid task op) after) :
    after.Mirrors { state with requests := state.requests ∪ op.copies pid (tables pid) } := by
  rcases permitted with ⟨computing, noAtomic, _, allowed⟩
  rcases taken with ⟨requests, posted, step, sameMemory, pending, requested⟩
  have superstep := (mirrors.computing computing).2
  have bytes := Operation.mem_copies noAtomic positive device posted
  have stays := World.superstep_step step (by simp)
  have same : ∀ p, (after.world.parties p).Computing ↔ (fabric.world.parties p).Computing := by
    intro p
    apply (step.moves p).computing (stays p)
    intro _ _ isDrain
    cases isDrain
  let fresh : Set (Transfer (Address n) UInt8) :=
    {transfer | ∃ copy ∈ op.copies pid (tables pid), transfer = ⟨copy.1, copy.2, none⟩}
  have todo' : after.todo = fabric.todo ∪ fresh := todo_post bytes pending
  have underway : Underway (state.requests ∪ op.copies pid (tables pid)) (fabric.todo ∪ fresh)
      state.memory fabric.memory := by
    apply mirrors.underway.add
    · rintro transfer ⟨copy, among, rfl⟩
      exact ⟨among, rfl⟩
    · intro copy among
      exact ⟨_, ⟨copy, among, rfl⟩, rfl, rfl⟩
  refine ⟨?_, ?_, ?_, ?_, ?_, ?_, ?_⟩
  · intro p
    have stands := mirrors.stands p
    show (after.world.parties p).Stands state.superstep (state.status p)
    cases status : state.status p <;> rw [status] at stands <;>
      exact ⟨by rw [same]; exact stands.1, by rw [stays]; exact stands.2⟩
  · rw [requested, superstep, Function.update_self, mirrors.requested]
  · intro later isLater
    rw [requested, superstep, Function.update_of_ne (Nat.ne_of_gt isLater)]
    exact mirrors.later later isLater
  · rw [mirrors.requests computing] at allowed
    exact separates _ allowed
  · rw [todo', sameMemory]
    exact underway
  · intro item member
    rw [pending] at member
    rcases List.mem_append.mp member with old | new
    · exact mirrors.recent item old
    · rcases List.mem_map.mp new with ⟨copy, _, rfl⟩
      exact superstep.le
  · intro p released
    rcases mirrors.attained p released with ⟨q, same⟩
    exact ⟨q, (stays q).trans same⟩

theorem enter (mirrors : fabric.Mirrors state) {pid : Fin n} {task : Task} {attr : SyncAttr}
    (taken : Step maxMsgSize tables fabric (.enter pid task attr) after)
    (computing : (fabric.world.parties pid).Computing) :
    after.Mirrors (state.set pid .entered) := by
  rcases taken with ⟨step, sameMemory, pending, requested⟩
  have superstep := (mirrors.computing computing).2
  have parties : after.world.parties = Function.update fabric.world.parties pid
      { fabric.world.parties pid with phase := .drained task attr } := by
    rw [step.2.2]
    rfl
  refine ⟨?_, requested ▸ mirrors.requested, requested ▸ mirrors.later, mirrors.apart, ?_,
    pending ▸ mirrors.recent, ?_⟩
  · intro p
    show (after.world.parties p).Stands state.superstep
      (Function.update state.status pid .entered p)
    rw [parties]
    by_cases own : p = pid
    · subst own
      rw [Function.update_self, Function.update_self]
      exact ⟨Party.not_computing_of_phase (by simp), superstep⟩
    · rw [Function.update_of_ne own, Function.update_of_ne own]
      exact mirrors.stands p
  · show Underway state.requests after.todo state.memory after.memory
    rw [todo, sameMemory, pending]
    exact mirrors.underway
  · intro p released
    have before : state.status p = .released := by
      by_cases own : p = pid
      · subst own
        exact Bulk.Status.noConfusion ((Function.update_self ..).symm.trans released)
      · exact (Function.update_of_ne own _ _).symm.trans released
    rcases mirrors.attained p before with ⟨q, same⟩
    exact ⟨q, (World.superstep_step step (by simp) q).trans same⟩

/-- A process that no other one is ahead of is in the superstep of the machine. -/
theorem superstep_of_first (mirrors : fabric.Mirrors state) {pid : Fin n}
    (first : ∀ p, (fabric.world.parties p).superstep ≤ (fabric.world.parties pid).superstep) :
    (fabric.world.parties pid).superstep = state.superstep := by
  have stands := mirrors.stands pid
  cases status : state.status pid <;> rw [status] at stands
  · exact stands.2
  · exact stands.2
  · rcases mirrors.attained pid status with ⟨q, same⟩
    have behind := first q
    have := stands.2
    omega

end Mirrors

/-- A process leaves its sync. -/
theorem stands_leave {pid : Fin n} {flag : Bool} {superstep : ℕ}
    {statuses : Fin n → Bulk.Status}
    (calm : (fabric.world.parties pid).Calm)
    (taken : Step maxMsgSize tables fabric (.leave pid flag) after)
    (next : (after.world.parties pid).superstep = superstep)
    (others : ∀ p, p ≠ pid → (fabric.world.parties p).Stands superstep (statuses p)) (p : Fin n) :
    (after.world.parties p).Stands superstep
      (Function.update statuses pid .computing p) := by
  rcases taken with ⟨⟨party, active, processed, moved⟩, further, _⟩
  have parties : after.world.parties = Function.update fabric.world.parties pid party := by
    rw [moved]
    rfl
  rw [parties] at further next ⊢
  rw [Function.update_self] at further next
  by_cases own : p = pid
  · subst own
    rw [Function.update_self, Function.update_self]
    refine ⟨⟨(Party.phase_processSyncRequest processed).trans (calm.idle active), ?_⟩, next⟩
    rcases Party.look_active active processed with ⟨same, _⟩ | ⟨_, inactive⟩
    · omega
    · exact inactive
  · rw [Function.update_of_ne own, Function.update_of_ne own]
    exact others p own

/-- A leaving process changes no other process. -/
theorem parties_leave {pid p : Fin n} {flag : Bool}
    (taken : Step maxMsgSize tables fabric (.leave pid flag) after) (other : p ≠ pid) :
    after.world.parties p = fabric.world.parties p := by
  rcases taken with ⟨⟨party, _, _, moved⟩, _⟩
  rw [moved]
  exact Function.update_of_ne other _ _

/-- When a process leaves its sync, all processes have counted their messages. -/
theorem counted_leave {pid : Fin n} {flag : Bool}
    (reached : World.Reachable devices World.Defaults after.world)
    (taken : Step maxMsgSize tables fabric (.leave pid flag) after) (p : Fin n) :
    (fabric.world.parties pid).superstep < (after.world.parties p).taken := by
  have further := taken.2.1
  have together := World.Reachable.together reached pid p
  omega

/-- When the first process leaves its sync, all processes are inside of theirs. -/
theorem Mirrors.entered (mirrors : fabric.Mirrors state) {pid : Fin n} {flag : Bool}
    (reached : World.Reachable devices World.Defaults after.world)
    (taken : Step maxMsgSize tables fabric (.leave pid flag) after)
    (first : (fabric.world.parties pid).superstep = state.superstep) (p : Fin n) :
    state.status p = .entered := by
  have stands := mirrors.stands p
  by_cases own : p = pid
  · subst own
    have active : (fabric.world.parties p).verbs.syncRequest.isActive = true := by
      rcases taken with ⟨⟨_, active, _⟩, _⟩
      exact active
    cases status : state.status p with
    | computing =>
        rw [status] at stands
        exact absurd stands.1 (Party.not_computing_of_active active)
    | entered => rfl
    | released =>
        rw [status] at stands
        have ended := stands.2
        omega
  · have counted := first ▸ counted_leave reached taken p
    have phased := (World.Reachable.announced reached).1.phased p
    rw [parties_leave taken own] at counted phased
    rw [Party.taken] at counted
    cases status : state.status p with
    | computing =>
        rw [status] at stands
        have first : ¬(fabric.world.parties p).verbs.syncRequest.secondPhase = true :=
          fun second => Party.not_computing_of_active (phased second).1 stands.1
        rw [if_neg first] at counted
        have begun := stands.2
        omega
    | entered => rfl
    | released =>
        rw [status] at stands
        have ended := stands.2
        split at counted <;> omega

/-- When the first process leaves its sync, all processes are inside of theirs and nothing is left
to copy. -/
theorem Mirrors.exhausted (mirrors : fabric.Mirrors state) {pid : Fin n} {flag : Bool}
    (calm : ∀ p, (fabric.world.parties p).Calm)
    (reached : World.Reachable devices World.Defaults after.world)
    (taken : Step maxMsgSize tables fabric (.leave pid flag) after)
    (first : (fabric.world.parties pid).superstep = state.superstep) :
    (∀ p, state.status p = .entered) ∧ fabric.pending = [] := by
  have entered := mirrors.entered reached taken first
  have pending : after.pending = fabric.pending := taken.2.2.2.1
  refine ⟨entered, List.eq_nil_iff_forall_not_mem.mpr ?_⟩
  intro item member
  have isOpen := after.isOpen item (pending ▸ member)
  have travels : item.op ∉ after.world.travelling item.op.peer := by
    intro onWay
    have late := (World.Reachable.announced reached).1.late _ _ onWay
    have recent := mirrors.recent item member
    have counted := first ▸ counted_leave reached taken item.op.peer
    omega
  have atDevice : item.op ∉ (after.world.parties item.pid).outstanding := by
    have stands := mirrors.stands item.pid
    rw [entered] at stands
    have none := (calm item.pid).outstanding stands.1
    by_cases own : item.pid = pid
    · rcases taken with ⟨⟨party, _, processed, moved⟩, _⟩
      have here : after.world.parties item.pid = party := by
        rw [moved, own]
        exact Function.update_self ..
      rw [here, Party.look_outstanding processed, ← own, none]
      exact Multiset.notMem_zero _
    · rw [parties_leave taken own, none]
      exact Multiset.notMem_zero _
  rw [Pending.Open] at isOpen
  cases kind : item.kind <;> rw [kind] at isOpen
  · exact travels isOpen.1
  · exact atDevice isOpen
  · exact travels isOpen.1
  · exact travels isOpen.1

/-- The first process that leaves its sync finds everything copied. -/
theorem Mirrors.leave (mirrors : fabric.Mirrors state) {pid : Fin n} {flag : Bool}
    (calm : ∀ p, (fabric.world.parties p).Calm)
    (reached : World.Reachable devices World.Defaults after.world)
    (taken : Step maxMsgSize tables fabric (.leave pid flag) after) :
    ∃ next, (Bulk.machine rule memory).Continues state [.leave pid] next ∧ after.Mirrors next := by
  have stands := mirrors.stands pid
  have whole := taken
  rcases taken with ⟨⟨party, active, processed, moved⟩, further, sameMemory, pending, requested⟩
  have own : (after.world.parties pid).superstep = party.superstep := by
    rw [moved]
    exact congrArg Party.superstep (Function.update_self ..)
  have nextSuperstep : party.superstep = (fabric.world.parties pid).superstep + 1 := by
    rcases Party.look_active active processed with ⟨same, _⟩ | ⟨next, _⟩
    · omega
    · exact next
  cases status : state.status pid <;> rw [status] at stands
  · exact absurd stands.1 (Party.not_computing_of_active active)
  · rcases mirrors.exhausted calm reached whole stands.2 with ⟨entered, nothing⟩
    have none : fabric.todo = ∅ := by
      ext transfer
      simp [todo, nothing]
    have copied := (none ▸ mirrors.underway).copied
    refine ⟨_, Bulk.continues_first pid entered copied, ?_⟩
    refine ⟨?_, ?_, ?_, apart_empty, ?_, ?_, ?_⟩
    · apply stands_leave (calm pid) whole
      · rw [own, nextSuperstep, stands.2]
        rfl
      · intro p _
        have itsStands := mirrors.stands p
        rw [entered] at itsStands
        exact ⟨itsStands.1, congrArg Nat.succ itsStands.2⟩
    · rw [requested]
      exact mirrors.later _ (Nat.lt_succ_self _)
    · intro superstep later
      rw [requested]
      exact mirrors.later _ (Nat.lt_trans (Nat.lt_succ_self _) later)
    · show Underway ∅ after.todo fabric.memory after.memory
      have still : after.todo = ∅ := by
        ext transfer
        simp [todo, pending, nothing]
      rw [still, sameMemory]
      exact .start _
    · intro item member
      rw [pending, nothing] at member
      exact absurd member List.not_mem_nil
    · intro _ _
      refine ⟨pid, ?_⟩
      rw [own, nextSuperstep, stands.2]
      rfl
  · have leaves : Bulk.Step state (.call (.leave pid)) (state.set pid .computing) := ⟨status, rfl⟩
    refine ⟨_, Bulk.continues_call trivial leaves, ?_⟩
    refine ⟨?_, requested ▸ mirrors.requested, requested ▸ mirrors.later, mirrors.apart, ?_,
      pending ▸ mirrors.recent, ?_⟩
    · apply stands_leave (calm pid) whole
      · rw [own, nextSuperstep, stands.2]
        rfl
      · exact fun p _ => mirrors.stands p
    · show Underway state.requests after.todo state.memory after.memory
      rw [todo, sameMemory, pending]
      exact mirrors.underway
    · intro _ _
      refine ⟨pid, ?_⟩
      rw [own, nextSuperstep]
      exact stands.2

/-- The machine answers every action of the processes and of the device. -/
theorem Mirrors.answered (mirrors : before.Mirrors state)
    (separates : ∀ pattern, rule pattern → Apart pattern) (positive : 0 < maxMsgSize)
    (device : maxMsgSize < 2 ^ 32)
    (reached : Transition.Reachable (Step maxMsgSize tables) (Permitted tables rule)
      (Fabric.initial devices memory) before)
    (permitted : Permitted tables rule before action)
    (taken : Step maxMsgSize tables before action after) :
    ∃ next, (Bulk.machine rule memory).Continues state (shows tables action) next ∧
      after.Mirrors next := by
  have calm := (reachable_world reached).2
  cases action with
  | read pid address value =>
      rcases taken with ⟨found, rfl⟩
      rcases permitted with ⟨computing, free⟩
      rw [mirrors.requests computing] at free
      refine ⟨state, Bulk.continues_call free ⟨(mirrors.computing computing).1, ?_, rfl⟩, mirrors⟩
      exact (mirrors.underway.of_not_target free).symm.trans found
  | write pid address value =>
      have isAfter : after = { before with
        memory := Function.update before.memory (pid, address) value } := taken
      rcases permitted with ⟨computing, noSource, noTarget⟩
      rw [mirrors.requests computing] at noSource noTarget
      refine ⟨_, Bulk.continues_call ⟨noSource, noTarget⟩
        ⟨(mirrors.computing computing).1, rfl⟩, ?_⟩
      rw [isAfter]
      exact mirrors.write noSource noTarget
  | post pid task op =>
      have allowed := permitted.2.2.2
      rw [mirrors.requests permitted.1] at allowed
      exact ⟨_, Bulk.continues_call allowed ⟨(mirrors.computing permitted.1).1, rfl⟩,
        mirrors.post separates positive device permitted taken⟩
  | enter pid task attr =>
      have computing : (before.world.parties pid).Computing := ⟨taken.1.1, permitted.1⟩
      exact ⟨_, Bulk.continues_call trivial ⟨(mirrors.computing computing).1, rfl⟩,
        mirrors.enter taken computing⟩
  | leave pid flag =>
      have next := (reachable_world (reached.tail permitted taken)).1
      exact mirrors.leave calm next taken
  | fetch item => exact ⟨state, .refl, mirrors.fetch taken⟩
  | store item => exact ⟨state, .refl, mirrors.store taken⟩
  | other worldAction =>
      rcases taken with ⟨step, _, noDrain, superstep, sameMemory, pending, requested⟩
      refine ⟨state, .refl, mirrors.quiet (fun p => ?_) superstep sameMemory pending requested⟩
      exact (step.moves p).computing (superstep p) (noDrain p)

/-- The device and the syncs are free to go on. -/
theorem unhindered : Unhindered (Permitted tables rule) (shows tables) where
  fetch _ _ := ⟨trivial, rfl⟩
  store _ _ := ⟨trivial, rfl⟩
  inner _ action inner := by
    cases action with
    | post | drain | processSyncRequest => exact inner.elim
    | _ => exact ⟨trivial, rfl⟩

section Runs

variable {labels : List (Bulk.Call (Fin n) (Address n) UInt8)} {world : World n}
  {now : Address n → UInt8} {requested : ℕ → Set (Address n × Address n)}

/-- All processes enter their syncs and get their messages. -/
theorem runs_entered
    (run : (Fabric.system maxMsgSize tables rule devices memory).Runs labels
      (clean world now requested))
    (computing : ∀ p, (world.parties p).Computing)
    (agree : ∀ p q, (world.parties p).verbs.syncCached = (world.parties q).verbs.syncCached) :
    ∃ arrived, (Fabric.system maxMsgSize tables rule devices memory).Runs
        (labels ++ (List.finRange n).map .enter) (clean arrived now requested) ∧
      (∀ p, arrived.travelling p = 0) ∧
      ∀ p, ∃ events, ((world.parties p).atRest events).Asks .default (arrived.parties p) := by
  have reached : World.Reachable devices World.Defaults world := (reachable_world run.reachable).1
  have tracked := World.Reachable.tracked reached
  have arrives := runs_arrived unhindered run (fun _ => 6) .default
    (fun _ p _ same => ⟨same ▸ (computing p).2, rfl⟩)
    (fun p => (tracked.parties p).conserved.numMsgs) computing agree
  have labelled : ((List.finRange n).flatMap fun p => shows tables (.enter p 6 .default)) =
      (List.finRange n).map .enter := List.map_eq_flatMap.symm
  rw [labelled] at arrives
  exact arrives

/-- All processes count their messages and wait for the barrier. -/
theorem runs_counted
    (run : (Fabric.system maxMsgSize tables rule devices memory).Runs labels
      (clean world now requested))
    (nothing : ∀ p, world.travelling p = 0)
    (active : ∀ p, (world.parties p).verbs.syncRequest.isActive = true)
    (barrier : ∀ p, (world.parties p).verbs.syncRequest.withBarrier = true)
    (first : ∀ p, (world.parties p).verbs.syncRequest.secondPhase = false)
    (counter : ∀ p, (world.parties p).verbs.syncCounter.toNat < 2 ^ 31) :
    ∃ counted : World n, (Fabric.system maxMsgSize tables rule devices memory).Runs labels
        (clean counted now requested) ∧
      ∀ p, (counted.parties p).phase = (world.parties p).phase ∧
        (counted.parties p).verbs.syncRequest.isActive = true ∧
        (counted.parties p).verbs.syncRequest.withBarrier = true ∧
        (counted.parties p).verbs.syncRequest.secondPhase = true ∧
        (counted.parties p).superstep = (world.parties p).superstep := by
  have reached : World.Reachable devices World.Defaults world := (reachable_world run.reachable).1
  have looked : ∀ p, ∃ after, (world.parties p).processSyncRequest false = some after ∧
      after.phase = (world.parties p).phase ∧
      after.verbs.syncRequest.isActive = (world.parties p).verbs.syncRequest.isActive ∧
      after.verbs.syncRequest.withBarrier = true ∧ after.verbs.syncRequest.secondPhase = true ∧
      after.superstep = (world.parties p).superstep := by
    intro p
    rcases Option.map_eq_some_iff.mp (syncIndex_of_nonneg (counter p)) with ⟨entry, index, _⟩
    exact World.exists_second (barrier p) (first p) index
      (reached.counts_of_arrived (nothing p) (active p) (first p) index).2.2.2
  choose counted looks phase isActive withBarrier second same using looked
  have between := runs_each run (fun p => .other (.processSyncRequest p false)) counted (by
    intro parties p own _
    refine ⟨fun no => absurd no Bool.false_ne_true, ⟨counted p, ?_, ?_, rfl⟩, nofun, nofun, ?_, rfl,
      rfl, rfl⟩
    · show (parties p).verbs.syncRequest.isActive = true
      rw [own]
      exact active p
    · show (parties p).processSyncRequest false = some (counted p)
      rw [own]
      exact looks p
    · intro q
      show (Function.update parties p (counted p) q).superstep = (parties q).superstep
      rw [Function.update_apply]
      split
      next here => rw [here, own, same]
      next => rfl)
  have silent : ((List.finRange n).flatMap fun p =>
      shows tables (.other (.processSyncRequest p false))) = [] :=
    List.flatMap_eq_nil_iff.mpr fun _ _ => rfl
  rw [silent, List.append_nil] at between
  exact ⟨_, between, fun p =>
    ⟨phase p, (isActive p).trans (active p), withBarrier p, second p, same p⟩⟩

/-- All processes count their messages, and leave their syncs after the barrier. -/
theorem runs_left {superstep : ℕ} (small : superstep < 2 ^ 31)
    (run : (Fabric.system maxMsgSize tables rule devices memory).Runs labels
      (clean world now requested))
    (nothing : ∀ p, world.travelling p = 0)
    (idle : ∀ p, (world.parties p).phase = .idle)
    (active : ∀ p, (world.parties p).verbs.syncRequest.isActive = true)
    (barrier : ∀ p, (world.parties p).verbs.syncRequest.withBarrier = true)
    (first : ∀ p, (world.parties p).verbs.syncRequest.secondPhase = false)
    (level : ∀ p, (world.parties p).superstep = superstep) :
    ∃ after, (Fabric.system maxMsgSize tables rule devices memory).Runs
        (labels ++ (List.finRange n).map .leave) (clean after now requested) ∧
      ∀ p, (after.parties p).Computing ∧ (after.parties p).superstep = superstep + 1 := by
  have reached : World.Reachable devices World.Defaults world := (reachable_world run.reachable).1
  have counter : ∀ p, (world.parties p).verbs.syncCounter.toNat < 2 ^ 31 := by
    intro p
    rw [((World.Reachable.tracked reached).parties p).syncCounter, level, BitVec.toNat_ofNat]
    omega
  rcases runs_counted run nothing active barrier first counter with ⟨counted, between, second⟩
  choose party ends stillIdle inactive further using fun p =>
    World.exists_finished (second p).2.2.1 (second p).2.2.2.1
  have same : ∀ p, (counted.parties p).superstep = superstep :=
    fun p => (second p).2.2.2.2.trans (level p)
  have taken : ∀ p, (counted.parties p).taken = superstep + 1 := by
    intro p
    rw [Party.taken, (second p).2.2.2.1, same]
    rfl
  have ahead : ∀ p, (party p).taken ≥ superstep + 1 := by
    intro p
    rw [Party.taken, further, same]
    exact Nat.le_add_right _ _
  have leaves := runs_each between (fun p => .leave p true) party (by
    intro parties p own among
    refine ⟨?_, ⟨party p, ?_, ?_, rfl⟩, ?_, rfl, rfl, rfl⟩
    · intro _ _ q
      show (parties p).taken ≤ (parties q).taken
      rw [own, taken]
      rcases among q with before | after
      · rw [before]
        exact (taken q).ge
      · rw [after]
        exact ahead q
    · show (parties p).verbs.syncRequest.isActive = true
      rw [own]
      exact (second p).2.1
    · show (parties p).processSyncRequest true = some (party p)
      rw [own]
      exact ends p
    · show (parties p).superstep < (Function.update parties p (party p) p).superstep
      rw [Function.update_self, own, further]
      exact Nat.lt_succ_self _)
  have labelled : ((List.finRange n).flatMap fun p => shows tables (.leave p true)) =
      (List.finRange n).map .leave := List.map_eq_flatMap.symm
  rw [labelled] at leaves
  refine ⟨_, leaves, fun p => ⟨⟨?_, inactive p⟩, ?_⟩⟩
  · exact (stillIdle p).trans ((second p).1.trans (idle p))
  · rw [further, same]

end Runs

/-- A register with ten bytes at address 100 -/
def tenRegister (n : ℕ) : CombinedMemoryRegister (MemorySlot n) :=
  ⟨⟨[⟨some ⟨3, 3⟩, fun _ => ⟨100, 10, 3, 3⟩⟩], [], 1, 1⟩, .empty⟩

/-- One byte at address 100 -/
def nine (place : Address n) : UInt8 := if place.2 = 100 then 9 else 0

def putByte (peer : Fin n) : Operation n := .put 1 0 peer 1 1 1

theorem addresses_putByte (pid peer : Fin n) :
    (putByte peer).addresses pid (tenRegister n) = some ((pid, 100), (peer, 101)) := by
  have found : (tenRegister n).lookup 1 = some ⟨some ⟨3, 3⟩, fun _ => ⟨100, 10, 3, 3⟩⟩ := rfl
  simp only [putByte, Operation.addresses, Operation.near, Operation.far, Operation.peer, found]

theorem copies_putByte (pid peer : Fin n) :
    (putByte peer).copies pid (tenRegister n) = {((pid, 100), (peer, 101))} := by
  ext copy
  constructor
  · rintro ⟨near, far, found, i, within, rfl⟩
    rw [addresses_putByte] at found
    cases found
    obtain rfl : i = 0 := Nat.lt_one_iff.mp within
    rfl
  · rintro rfl
    exact ⟨_, _, addresses_putByte pid peer, 0, Nat.one_pos, rfl⟩

theorem apart_putByte (pid peer : Fin n) :
    Apart (∅ ∪ (putByte peer).copies pid (tenRegister n)) := by
  rw [copies_putByte, Set.empty_union]
  rintro first rfl second rfl same
  exact absurd (congrArg Prod.snd same) (by simp)

/-- A process puts the byte to a peer. -/
theorem runs_byte {Label : Type} {permitted : Fabric n → Action n → Prop}
    {shows : Action n → List Label} (free : Unhindered permitted shows) {labels : List Label}
    {world after : World n} {now : Address n → UInt8}
    {requested : ℕ → Set (Address n × Address n)} {pid peer : Fin n}
    (run : (under 4 (fun _ => tenRegister n) permitted shows devices memory).Runs labels
      (clean world now requested))
    (step : world.Step (.post pid 5 .put peer) after)
    (allowed : permitted (clean world now requested) (.post pid 5 (putByte peer))) :
    (under 4 (fun _ => tenRegister n) permitted shows devices memory).Runs
      (labels ++ shows (.post pid 5 (putByte peer)))
      (clean after (Function.update now (peer, 101) (now (pid, 100)))
        (Function.update requested (world.parties pid).superstep
          (requested (world.parties pid).superstep ∪
            (putByte peer).copies pid (tenRegister n)))) :=
  runs_post free run rfl step allowed

/-- A process puts the byte to a peer in a superstep of default syncs. -/
theorem runs_putByte (pid peer : Fin n)
    (allowed : rule (∅ ∪ (putByte peer).copies pid (tenRegister n))) :
    ∃ world, (Fabric.system 4 (fun _ => tenRegister n) rule (fun _ => .generous n) nine).Runs
      [.request pid ((putByte peer).copies pid (tenRegister n))]
      (clean world (Function.update nine (peer, 101) 9) (Function.update (fun _ => ∅) 0
        (∅ ∪ (putByte peer).copies pid (tenRegister n)))) ∧
      ∀ p, (world.parties p).Computing ∧ (world.parties p).verbs.syncCached = false ∧
        (world.parties p).verbs.syncRequest.secondPhase = false ∧
        (world.parties p).superstep = 0 := by
  let start : World n := .initial fun _ => .generous n
  have none : start.notified peer 0 = 0 := by
    rw [World.notified_eq_sum]
    exact Finset.sum_eq_zero fun _ _ => rfl
  have bounded : start.Bounded (.post pid 5 .put peer) := by
    constructor
    · exact Nat.one_lt_two_pow (by decide)
    · show start.notified peer 0 + 1 < 2 ^ 31
      rw [none]
      decide
  have step : start.Step (.post pid 5 .put peer) _ := rfl
  have started : (Fabric.system 4 (fun _ => tenRegister n) rule (fun _ => .generous n) nine).Runs
      [] (clean start nine fun _ => ∅) := .refl
  have posted := runs_byte unhindered started step ⟨⟨rfl, rfl⟩, id, bounded, allowed⟩
  refine ⟨_, posted, fun p => ?_⟩
  rcases World.post_frame step p with ⟨phase, syncRequest, syncCached, superstep⟩
  refine ⟨⟨phase, ?_⟩, syncCached, ?_, superstep⟩
  · rw [syncRequest]
    rfl
  · rw [syncRequest]
    rfl

theorem mirrors_run (separates : ∀ pattern, rule pattern → Apart pattern)
    (positive : 0 < maxMsgSize) (device : maxMsgSize < 2 ^ 32)
    {labels : List (Bulk.Call (Fin n) (Address n) UInt8)}
    (run : (Fabric.system maxMsgSize tables rule devices memory).Runs labels fabric) :
    ∃ state, (Bulk.machine rule memory).Runs labels state ∧ fabric.Mirrors state := by
  apply run.simulated _ (.initial devices memory)
  intro before state action after reached mirrors permitted taken
  exact mirrors.answered separates positive device reached permitted taken

/-- Users of default syncs see a run of the bulk-synchronous machine, and no counter leaves its
range.  When the first process leaves its sync, all are in theirs and nothing is left to copy. -/
theorem defaults_bulkSynchronous (separates : ∀ pattern, rule pattern → Apart pattern)
    (positive : 0 < maxMsgSize) (device : maxMsgSize < 2 ^ 32)
    {labels : List (Bulk.Call (Fin n) (Address n) UInt8)}
    (run : (Fabric.system maxMsgSize tables rule devices memory).Runs labels fabric) :
    (∃ state, (Bulk.machine rule memory).Runs labels state ∧ fabric.Mirrors state) ∧
    fabric.world.Ints ∧
    ∀ pid flag after, Permitted tables rule fabric (.leave pid flag) →
      Step maxMsgSize tables fabric (.leave pid flag) after →
      (∀ p, (fabric.world.parties p).superstep ≤ (fabric.world.parties pid).superstep) →
        (∀ p, ¬(fabric.world.parties p).Computing) ∧ fabric.pending = [] := by
  rcases mirrors_run separates positive device run with ⟨state, runs, mirrors⟩
  have whole : Transition.Reachable (Step maxMsgSize tables) (Permitted tables rule)
      (initial devices memory) fabric := run.reachable
  rcases reachable_world whole with ⟨reached, calm⟩
  refine ⟨⟨state, runs, mirrors⟩, reached.ints_of_defaults, ?_⟩
  intro pid flag after permitted taken first
  have next := (reachable_world (whole.tail permitted taken)).1
  rcases mirrors.exhausted calm next taken (mirrors.superstep_of_first first) with
    ⟨entered, nothing⟩
  refine ⟨fun p computing => ?_, nothing⟩
  have stands := mirrors.stands p
  rw [entered] at stands
  exact stands.1 computing

/-- A process puts a byte to another one, which reads it after their sync. -/
def byteCalls (p q : Fin n) : List (Bulk.Call (Fin n) (Address n) UInt8) :=
  [.request p ((putByte q).copies p (tenRegister n)), .enter p, .enter q, .leave p, .leave q,
    .read q (q, 101) 9]

theorem runs_byteCalls {rule : Set (Address 2 × Address 2) → Prop}
    (allowed : rule (∅ ∪ (putByte 1).copies 0 (tenRegister 2))) :
    (∃ early, (Fabric.system 4 (fun _ => tenRegister 2) rule (fun _ => .generous 2) nine).Runs
      ((byteCalls 0 1).take 3) early) ∧
    ∃ last, (Fabric.system 4 (fun _ => tenRegister 2) rule (fun _ => .generous 2) nine).Runs
      (byteCalls 0 1) last := by
  rcases runs_putByte 0 1 allowed with ⟨world, posted, started⟩
  rcases runs_entered posted (fun p => (started p).1)
    (fun p q => (started p).2.1.trans (started q).2.1.symm) with ⟨arrived, entered, nothing, asked⟩
  refine ⟨⟨_, entered⟩, ?_⟩
  choose events asks using asked
  rcases runs_left (Nat.two_pow_pos 31) entered nothing (fun p => (asks p).idle)
    (fun p => (asks p).isActive) (fun p => (asks p).withBarrier)
    (fun p => (asks p).keeps.secondPhase.trans (started p).2.2.1)
    (fun p => (asks p).keeps.superstep.trans (started p).2.2.2) with ⟨after, left, computing⟩
  have nothing : ¬Target (Function.update (fun _ => (∅ : Set (Address 2 × Address 2))) 0
      (∅ ∪ (putByte 1).copies 0 (tenRegister 2)) (after.parties 1).superstep) (1, 101) := by
    rw [(computing 1).2, Function.update_of_ne Nat.one_ne_zero]
    exact fun ⟨_, member⟩ => Set.notMem_empty _ member
  exact ⟨_, @Transition.System.Continues.tail _ _ _
    (Fabric.system 4 (fun _ => tenRegister 2) rule (fun _ => .generous 2) nine) _ _ _ _
    (.read 1 101 9) left ⟨(computing 1).1, nothing⟩ ⟨rfl, rfl⟩⟩

theorem defaults_bulkSynchronous_pair : ∃ state : Bulk.State (Fin 2) (Address 2) UInt8,
    (Bulk.machine Apart nine).Runs (byteCalls 0 1) state := by
  rcases (runs_byteCalls (apart_putByte 0 1)).2 with ⟨_, read⟩
  rcases defaults_bulkSynchronous (fun _ => id) (by decide) (by decide) read with
    ⟨⟨state, runs, _⟩, _⟩
  exact ⟨state, runs⟩

end Fabric

end IBVerbs

end Talpf
