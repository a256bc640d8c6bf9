import Talpf.IBVerbs.BulkSynchrony
import Talpf.IBVerbs.Neighbours
import Talpf.Library.Relaxed

/-!
# Overlapping supersteps of cached syncs

Cached syncs have no barrier: a process leaves its sync when it has its messages,
and goes on while others still compute in their supersteps.  Its puts may then
reach the memory of a process that is one superstep behind.  If these bytes are
none that this process uses in its superstep, users see a machine in which every
process has a memory of its own and is sent messages that it gets at the end of
its superstep.
-/

namespace Talpf

open Copying

variable {n : ℕ}

namespace IBVerbs

/-- The bytes of an operation, each with its address here and its address at the peer -/
def Operation.places (pid : Fin n) (memreg : CombinedMemoryRegister (MemorySlot n))
    (op : Operation n) : List (ℕ × ℕ) :=
  match op.addresses pid memreg with
  | some (near, far) => (List.range op.size).map fun i => (near.2 + i, far.2 + i)
  | none => []

/-- An operation begins at an address of its process and at one of its peer. -/
theorem Operation.addresses_owned {op : Operation n} {pid : Fin n}
    {memreg : CombinedMemoryRegister (MemorySlot n)} {near far : Address n}
    (found : op.addresses pid memreg = some (near, far)) : near.1 = pid ∧ far.1 = op.peer := by
  rw [Operation.addresses] at found
  split at found
  next =>
    cases found
    exact ⟨rfl, rfl⟩
  next => cases found

theorem Operation.mem_places {op : Operation n} (isPut : op.kind = .put) {pid : Fin n}
    {memreg : CombinedMemoryRegister (MemorySlot n)} {copy : Address n × Address n} :
    copy ∈ op.copies pid memreg ↔ ∃ places ∈ op.places pid memreg,
      copy = ((pid, places.1), (op.peer, places.2)) := by
  rw [Operation.copies, Operation.places, isPut]
  constructor
  · rintro ⟨near, far, found, i, within, rfl⟩
    rcases Operation.addresses_owned found with ⟨rfl, toPeer⟩
    rw [found, ← toPeer]
    exact ⟨_, List.mem_map.mpr ⟨i, List.mem_range.mpr within, rfl⟩, rfl⟩
  · cases found : op.addresses pid memreg with
    | none =>
        rintro ⟨places, member, _⟩
        exact absurd member List.not_mem_nil
    | some both =>
        rintro ⟨places, member, rfl⟩
        rcases List.mem_map.mp member with ⟨i, within, rfl⟩
        rcases Operation.addresses_owned found with ⟨rfl, toPeer⟩
        exact ⟨both.1, both.2, rfl, i, List.mem_range.mp within, toPeer ▸ rfl⟩

/-- What the copies of a superstep write is not read by them nor used in the superstep before. -/
def Buffered (requested : ℕ → Set (Address n × Address n)) : Prop :=
  ∀ k, Apart (requested k) ∧ ∀ first ∈ requested k, ∀ second ∈ requested (k + 1),
    first.1 ≠ second.2 ∧ first.2 ≠ second.2

namespace Fabric

section Overlapping

variable (maxMsgSize : ℕ) (tables : Fin n → CombinedMemoryRegister (MemorySlot n))
  (c : Fin n → Fin n → ℕ)

/-- No copy of the superstep of a process or of the next one reaches the address. -/
def Clear (fabric : Fabric n) (pid : Fin n) (address : ℕ) : Prop :=
  ¬Target (fabric.requests pid) (pid, address) ∧
    ¬Target (fabric.requested ((fabric.world.parties pid).superstep + 1)) (pid, address)

/-- Processes compute outside of their syncs, which are cached syncs, and put what the pattern has.
They keep away from the memory that is being copied, by processes that are ahead too. -/
def Neighbourly (fabric : Fabric n) : Action n → Prop
  | .read pid address _ => (fabric.world.parties pid).Computing ∧ fabric.Clear pid address
  | .write pid address _ => (fabric.world.parties pid).Computing ∧ fabric.Clear pid address ∧
      ¬Source (fabric.requests pid) (pid, address)
  | .post pid task op => (fabric.world.parties pid).Computing ∧ op.kind = .put ∧
      fabric.world.Pattern c (.post pid task op.kind op.peer) ∧
      Buffered (Function.update fabric.requested (fabric.world.parties pid).superstep
        (fabric.requests pid ∪ op.copies pid (tables pid)))
  | .enter pid task attr => (fabric.world.parties pid).verbs.syncRequest.isActive = false ∧
      attr = .cached ∧ fabric.world.Pattern c (.drain pid task attr)
  | .leave _ _ | .other _ | .fetch _ | .store _ => True

/-- What a user sees, each process with a memory of its own -/
def calls : Action n → List (Relaxed.Call (Fin n) ℕ UInt8)
  | .read pid address value => [.read pid address value]
  | .write pid address value => [.write pid address value]
  | .post pid _ op => [.send pid op.peer (op.places pid (tables pid))]
  | .enter pid _ _ => [.enter pid]
  | .leave pid _ => [.leave pid]
  | .fetch _ | .store _ | .other _ => []

def overlapping (devices : Fin n → Device n) (memory : Address n → UInt8) :
    Transition.System (Fabric n) (Action n) (Relaxed.Call (Fin n) ℕ UInt8) :=
  under maxMsgSize tables (Neighbourly tables c) (calls tables) devices memory

end Overlapping

end Fabric

namespace Party

/-- The operations at the device are those of the superstep. -/
def Prompt (party : Party n) : Prop := ∀ op ∈ party.outstanding, op.superstep = party.superstep

theorem notifications_post (party : Party n) (task : Task) (kind : OperationKind)
    (peer other : Fin n) (superstep : ℕ) :
    (party.post task kind peer).notifications other superstep =
      party.notifications other superstep +
        if peer = other ∧ party.superstep = superstep then 1 else 0 :=
  Multiset.countP_cons _ _ _

theorem Moves.prompt {party after : Party n} {p : Fin n} {action : World.Action n}
    (moves : party.Moves p action after) (calm : party.Calm) (prompt : party.Prompt) :
    after.Prompt := by
  cases moves with
  | post task kind peer =>
      intro op member
      rcases Multiset.mem_cons.mp member with rfl | old
      · rfl
      · exact prompt op old
  | complete first =>
      intro op member
      exact prompt op (first ▸ Multiset.mem_cons_of_mem member)
  | @readCounts task attr drained =>
      intro op member
      rw [(frame_readCounts party task attr).2.2.2]
      rw [(readCounts_busy party task attr).2.2] at member
      exact prompt op member
  | request ready accepted =>
      intro op member
      rcases request_busy accepted with ⟨_, _, outstanding, superstep⟩
      rw [superstep]
      exact prompt op (outstanding ▸ member)
  | processSyncRequest active processed =>
      intro op member
      rw [look_outstanding processed, calm.outstanding (not_computing_of_active active)] at member
      exact absurd member (Multiset.notMem_zero op)
  | _ => exact prompt

end Party

namespace World

variable {world : World n} {c : Fin n → Fin n → ℕ}

/-- What is known in runs of cached syncs -/
structure Cached (c : Fin n → Fin n → ℕ) (world : World n) : Prop where
  tracked : world.Tracked
  level : world.Level
  patterned : world.Patterned c
  settled : world.Settled
  exhausts : world.Exhausts fun p _ => ∑ q, c q p
  calm : ∀ p, (world.parties p).Calm
  prompt : ∀ p, (world.parties p).Prompt

namespace Cached

theorem skew (known : world.Cached c) {q p : Fin n} (sends : 0 < c q p) :
    (world.parties p).superstep ≤ (world.parties q).superstep + 1 :=
  known.patterned.skew known.level known.exhausts sends

/-- All messages of a superstep have been sent to a process that has counted them. -/
theorem notifications (known : world.Cached c) {q p : Fin n} {superstep : ℕ}
    (counted : superstep < (world.parties p).taken) :
    (world.parties q).notifications p superstep = c q p := by
  have all := known.exhausts.counted p superstep counted
  rw [notified_eq_sum, Finset.sum_eq_sum_iff_of_le fun r _ =>
    known.patterned.notifications_le known.level r p superstep] at all
  exact all q (Finset.mem_univ q)

/-- Nothing is sent ahead of the superstep of the sender. -/
theorem superstep_le (known : world.Cached c) {q p : Fin n} {superstep : ℕ}
    (some : 0 < (world.parties q).notifications p superstep) :
    superstep ≤ (world.parties q).superstep := by
  rcases Multiset.countP_pos.mp some with ⟨op, logged, _, rfl⟩
  exact known.patterned.superstep q op logged

/-- What a process that computes has sent in its superstep -/
theorem numMsgsSync (known : world.Cached c) {p : Fin n} (computing : (world.parties p).Computing)
    (q : Fin n) : (world.parties p).verbs.numMsgsSync q =
      (world.parties p).notifications q (world.parties p).superstep := by
  have epoch := (known.tracked.parties p).epoch
  rw [computing.1, computing.2, SyncPhase.begun] at epoch
  rw [(known.tracked.parties p).conserved.numMsgsSync q, known.level.notifications, epoch]
  rfl

end Cached

end World

namespace Fabric

variable {maxMsgSize : ℕ} {tables : Fin n → CombinedMemoryRegister (MemorySlot n)}
  {c : Fin n → Fin n → ℕ} {devices : Fin n → Device n}
  {memory : Address n → UInt8} {before fabric after : Fabric n}
  {action : Action n} {state : Relaxed.State (Fin n) ℕ UInt8}

/-- What an action means for the counters -/
theorem neighbourly_cases (permitted : Neighbourly tables c before action)
    (taken : Step maxMsgSize tables before action after) : after.world = before.world ∨
      ∃ worldAction, before.world.CachedPattern c worldAction ∧ before.world.Timely worldAction ∧
        World.Step before.world worldAction after.world := by
  cases action with
  | read pid address value => exact Or.inl (taken.2 ▸ rfl)
  | write pid address value =>
      rw [taken]
      exact Or.inl rfl
  | post pid task op =>
      rcases taken with ⟨_, _, step, _⟩
      rcases permitted with ⟨computing, _, pattern, _⟩
      exact Or.inr ⟨.post pid task op.kind op.peer,
        ⟨⟨Or.inl computing.1, computing.2⟩, trivial, pattern⟩, computing, step⟩
  | enter pid task attr =>
      have computing : (before.world.parties pid).Computing := ⟨taken.1.1, permitted.1⟩
      exact Or.inr ⟨.drain pid task attr, ⟨trivial, permitted.2.1, permitted.2.2⟩, computing,
        taken.1⟩
  | leave pid flag =>
      exact Or.inr ⟨.processSyncRequest pid flag, ⟨trivial, trivial, trivial⟩, trivial, taken.1⟩
  | fetch item =>
      rcases taken with ⟨_, _, _, _, same, _⟩
      exact Or.inl same
  | store item =>
      rcases taken with ⟨_, _, _, _, _, same, _⟩
      exact Or.inl same
  | other worldAction =>
      rcases taken with ⟨step, noPost, noDrain, _⟩
      refine Or.inr ⟨_, ?_, World.timely_other noPost noDrain, step⟩
      cases worldAction with
      | post pid task kind peer => exact absurd rfl (noPost pid task kind peer)
      | drain pid task attr => exact absurd rfl (noDrain pid task attr)
      | _ => exact ⟨trivial, trivial, trivial⟩

theorem neighbourly_reachable
    (run : Transition.Reachable (Step maxMsgSize tables) (Neighbourly tables c)
      (initial devices memory) fabric) :
    World.Reachable devices (World.CachedPattern c) fabric.world ∧
      ∀ p, (fabric.world.parties p).Calm ∧ (fabric.world.parties p).Prompt := by
  apply run.invariant
  · exact ⟨.refl, fun _ => ⟨⟨fun _ => rfl, fun _ => rfl⟩,
      fun op member => absurd member (Multiset.notMem_zero op)⟩⟩
  · rintro before action after ⟨reached, idle⟩ permitted taken
    rcases neighbourly_cases permitted taken with same | ⟨worldAction, allowed, timely, step⟩
    · rw [same]
      exact ⟨reached, idle⟩
    · refine ⟨reached.tail allowed step, fun p => ⟨?_, ?_⟩⟩
      · exact World.calm_step (World.Reachable.tracked reached) (fun p => (idle p).1) timely
          step p
      · exact (step.moves p).prompt (idle p).1 (idle p).2

theorem neighbourly_known (symmetric : ∀ p q, 0 < c p q ↔ 0 < c q p)
    (run : Transition.Reachable (Step maxMsgSize tables) (Neighbourly tables c)
      (initial devices memory) fabric) : fabric.world.Cached c := by
  rcases neighbourly_reachable run with ⟨reached, idle⟩
  rcases World.Reachable.patterned symmetric reached with ⟨patterned, settled, exhausts⟩
  exact ⟨World.Reachable.tracked reached, World.Reachable.level (reached.mono fun _ _ all => all.1),
    patterned, settled, exhausts, fun p => (idle p).1, fun p => (idle p).2⟩

/-- A byte that the device moves has a value that was sent. -/
structure Carries (fabric : Fabric n) (state : Relaxed.State (Fin n) ℕ UInt8) (item : Pending n) :
    Prop where
  kind : item.kind = .put
  source : item.transfer.source.1 = item.pid
  target : item.transfer.target.1 = item.op.peer
  requested : (item.transfer.source, item.transfer.target) ∈ fabric.requested item.op.superstep
  fetched : ∀ value, item.transfer.fetched = some value →
    (item.transfer.target.2, value) ∈ state.sent item.op.superstep item.op.peer
  unfetched : item.transfer.fetched = none →
    (item.transfer.target.2, state.memory item.pid item.transfer.source.2) ∈
      state.sent item.op.superstep item.op.peer

/-- An address has a value that was sent to it already, or nothing has reached it. -/
def Holds (fabric : Fabric n) (state : Relaxed.State (Fin n) ℕ UInt8) (p : Fin n) (place : ℕ) :
    Prop :=
  (∃ k, (fabric.world.parties p).superstep ≤ k ∧
    (place, fabric.memory (p, place)) ∈ state.sent k p) ∨
  (fabric.memory (p, place) = state.memory p place ∧
    ∀ k, (fabric.world.parties p).superstep ≤ k → ∀ source,
      (source, (p, place)) ∈ fabric.requested k →
        ∃ transfer ∈ fabric.todo, transfer.source = source ∧ transfer.target = (p, place))

/-- The memories of the processes are views of those of the machine. -/
structure Views (c : Fin n → Fin n → ℕ) (fabric : Fabric n)
    (state : Relaxed.State (Fin n) ℕ UInt8) : Prop where
  superstep : ∀ p, state.superstep p = (fabric.world.parties p).superstep
  computing : ∀ p, state.computing p ↔ (fabric.world.parties p).Computing
  messages : ∀ p q, state.messages p q =
    (fabric.world.parties p).notifications q (fabric.world.parties p).superstep
  buffered : Buffered fabric.requested
  requested : ∀ k, ∀ copy ∈ fabric.requested k, 0 < c copy.1.1 copy.2.1 ∧
    k ≤ (fabric.world.parties copy.1.1).superstep
  sent : ∀ k p place value, (place, value) ∈ state.sent k p →
    Target (fabric.requested k) (p, place)
  carries : ∀ item ∈ fabric.pending, fabric.Carries state item
  holds : ∀ p place, fabric.Holds state p place

namespace Views

theorem initial (devices : Fin n → Device n) (memory : Address n → UInt8) :
    (Fabric.initial devices memory).Views c
      (Relaxed.machine c fun p place => memory (p, place)).start where
  superstep _ := rfl
  computing _ := ⟨fun _ => ⟨rfl, rfl⟩, fun _ => trivial⟩
  messages _ _ := rfl
  buffered _ := ⟨apart_empty, fun _ member => absurd member (Set.notMem_empty _)⟩
  requested _ _ member := absurd member (Set.notMem_empty _)
  sent _ _ _ _ member := absurd member (Set.notMem_empty _)
  carries _ member := absurd member List.not_mem_nil
  holds _ _ := Or.inr ⟨rfl, fun _ _ _ member => absurd member (Set.notMem_empty _)⟩

/-- What neither ends a superstep nor begins a sync -/
theorem quiet (views : fabric.Views c state)
    (computing : ∀ p, (after.world.parties p).Computing ↔ (fabric.world.parties p).Computing)
    (superstep : ∀ p, (after.world.parties p).superstep = (fabric.world.parties p).superstep)
    (log : ∀ p, (after.world.parties p).log = (fabric.world.parties p).log)
    (sameMemory : after.memory = fabric.memory) (pending : after.pending = fabric.pending)
    (requested : after.requested = fabric.requested) : after.Views c state where
  superstep p := (views.superstep p).trans (superstep p).symm
  computing p := (views.computing p).trans (computing p).symm
  messages p q := by
    rw [Party.notifications, log, superstep]
    exact views.messages p q
  buffered := requested ▸ views.buffered
  requested := by
    rw [requested]
    intro k copy member
    rw [superstep]
    exact views.requested k copy member
  sent := requested ▸ views.sent
  carries := by
    rw [pending]
    intro item member
    rcases views.carries item member with ⟨kind, source, target, isRequested, fetched, unfetched⟩
    exact ⟨kind, source, target, requested ▸ isRequested, fetched, unfetched⟩
  holds p place := by
    rw [Holds, superstep, sameMemory, requested, todo, pending]
    exact views.holds p place

theorem enter (views : fabric.Views c state) {pid : Fin n} {task : Task} {attr : SyncAttr}
    (taken : Step maxMsgSize tables fabric (.enter pid task attr) after) :
    after.Views c { state with computing := Function.update state.computing pid False } := by
  rcases taken with ⟨⟨_, _, world⟩, sameMemory, pending, requested⟩
  have parties : after.world.parties = Function.update fabric.world.parties pid
      { fabric.world.parties pid with phase := .drained task attr } := by
    rw [world]
    rfl
  have same : ∀ p, (after.world.parties p).superstep = (fabric.world.parties p).superstep ∧
      (after.world.parties p).log = (fabric.world.parties p).log := by
    intro p
    rw [parties, Function.update_apply]
    split
    next own => exact own ▸ ⟨rfl, rfl⟩
    next => exact ⟨rfl, rfl⟩
  refine ⟨?_, ?_, ?_, requested ▸ views.buffered, ?_, requested ▸ views.sent, ?_, ?_⟩
  · exact fun p => (views.superstep p).trans (same p).1.symm
  · intro p
    show Function.update state.computing pid False p ↔ _
    rw [parties]
    by_cases own : p = pid
    · subst own
      rw [Function.update_self, Function.update_self]
      exact iff_of_false id (Party.not_computing_of_phase (by simp))
    · rw [Function.update_of_ne own, Function.update_of_ne own]
      exact views.computing p
  · intro p q
    rw [Party.notifications, (same p).1, (same p).2]
    exact views.messages p q
  · rw [requested]
    intro k copy member
    rw [(same _).1]
    exact views.requested k copy member
  · rw [pending]
    intro item member
    rcases views.carries item member with ⟨kind, source, target, isRequested, fetched, unfetched⟩
    exact ⟨kind, source, target, requested ▸ isRequested, fetched, unfetched⟩
  · intro p place
    rw [Holds, (same p).1, sameMemory, requested, todo, pending]
    exact views.holds p place

end Views

/-- What the put of a process changes -/
structure Puts (tables : Fin n → CombinedMemoryRegister (MemorySlot n)) (fabric : Fabric n)
    (pid : Fin n) (task : Task) (op : Operation n) (after : Fabric n) : Prop where
  isPut : op.kind = .put
  parties : after.world.parties = Function.update fabric.world.parties pid
    ((fabric.world.parties pid).post task op.kind op.peer)
  superstep : ∀ p, (after.world.parties p).superstep = (fabric.world.parties p).superstep
  memory : after.memory = fabric.memory
  todo : after.todo = fabric.todo ∪
    {transfer | ∃ copy ∈ op.copies pid (tables pid), transfer = ⟨copy.1, copy.2, none⟩}
  pending : ∀ item ∈ after.pending, item ∈ fabric.pending ∨
    ∃ copy ∈ op.copies pid (tables pid), item = ⟨pid, op.kind,
      (fabric.world.parties pid).operation task op.peer, ⟨copy.1, copy.2, none⟩⟩
  requested : after.requested = Function.update fabric.requested
    (fabric.world.parties pid).superstep (fabric.requests pid ∪ op.copies pid (tables pid))

theorem puts_of_step {pid : Fin n} {task : Task} {op : Operation n} (isPut : op.kind = .put)
    (positive : 0 < maxMsgSize) (device : maxMsgSize < 2 ^ 32)
    (taken : Step maxMsgSize tables fabric (.post pid task op) after) :
    fabric.Puts tables pid task op after := by
  rcases taken with ⟨requests, posted, step, sameMemory, pending, requested⟩
  have noAtomic : ¬op.IsAtomic := by
    cases op with
    | put => exact id
    | get => cases isPut
    | atomicFetchAndAdd => cases isPut
    | atomicCmpAndSwp => cases isPut
  have bytes := Operation.mem_copies noAtomic positive device posted
  refine ⟨isPut, ?_, World.superstep_step step (by simp), sameMemory, todo_post bytes pending, ?_,
    requested⟩
  · rw [step]
    rfl
  · intro item member
    rw [pending] at member
    refine (List.mem_append.mp member).imp_right fun new => ?_
    rcases List.mem_map.mp new with ⟨copy, among, rfl⟩
    exact ⟨copy, (bytes copy).mp among, rfl⟩

section Puts

variable {pid : Fin n} {task : Task} {op : Operation n}

theorem Puts.older (puts : fabric.Puts tables pid task op after) (k : ℕ) :
    fabric.requested k ⊆ after.requested k := by
  intro copy member
  rw [puts.requested, Function.update_apply]
  split
  next now =>
    subst now
    exact Or.inl member
  next => exact member

theorem Puts.news (puts : fabric.Puts tables pid task op after) {k : ℕ}
    {copy : Address n × Address n} (member : copy ∈ after.requested k) :
    copy ∈ fabric.requested k ∨
      (k = (fabric.world.parties pid).superstep ∧ copy ∈ op.copies pid (tables pid)) := by
  rw [puts.requested, Function.update_apply] at member
  split at member
  next now =>
    subst now
    exact member.imp_right fun new => ⟨rfl, new⟩
  next => exact Or.inl member

theorem Puts.now (puts : fabric.Puts tables pid task op after) {copy : Address n × Address n}
    (member : copy ∈ op.copies pid (tables pid)) :
    copy ∈ after.requested (fabric.world.parties pid).superstep := by
  rw [puts.requested, Function.update_self]
  exact Or.inr member

end Puts

/-- The state of the machine after the put -/
def sending (tables : Fin n → CombinedMemoryRegister (MemorySlot n))
    (state : Relaxed.State (Fin n) ℕ UInt8) (pid : Fin n) (op : Operation n) :
    Relaxed.State (Fin n) ℕ UInt8 :=
  state.send pid op.peer (Relaxed.carried (state.memory pid) (op.places pid (tables pid)))

namespace Views

section Posts

variable {pid : Fin n} {task : Task} {op : Operation n} (views : fabric.Views c state)
  (puts : fabric.Puts tables pid task op after)

include views puts

theorem computing_post (p : Fin n) :
    (sending tables state pid op).computing p ↔ (after.world.parties p).Computing := by
  refine (views.computing p).trans ?_
  rw [puts.parties, Function.update_apply]
  split
  next own =>
    rw [own, Party.post, OperationKind.post_eq]
    exact (Party.computing_congr rfl rfl).symm
  next => exact Iff.rfl

theorem messages_post (p q : Fin n) : (sending tables state pid op).messages p q =
    (after.world.parties p).notifications q (after.world.parties p).superstep := by
  rw [puts.superstep, sending, Relaxed.State.messages_send, views.messages, puts.parties]
  by_cases own : p = pid
  · subst own
    rw [Function.update_self, Party.notifications_post]
    simp [eq_comm]
  · rw [Function.update_of_ne own, if_neg fun both => own both.1, Nat.add_zero]

theorem sent_post {k : ℕ} {p : Fin n} {place : ℕ} {value : UInt8}
    (member : (place, value) ∈ (sending tables state pid op).sent k p) :
    Target (after.requested k) (p, place) := by
  rw [sending, Relaxed.State.mem_sent_send] at member
  rcases member with old | ⟨rfl, rfl, among⟩
  · rcases views.sent k p place value old with ⟨source, asked⟩
    exact ⟨source, puts.older k asked⟩
  · rcases List.mem_map.mp among with ⟨places, isPlaces, same⟩
    cases same
    refine ⟨(pid, places.1), ?_⟩
    rw [views.superstep]
    exact puts.now ((Operation.mem_places puts.isPut).mpr ⟨places, isPlaces, rfl⟩)

/-- What is put has the values that its places have now. -/
theorem arrives_post {copy : Address n × Address n} (member : copy ∈ op.copies pid (tables pid)) :
    (copy.2.2, state.memory pid copy.1.2) ∈
      (sending tables state pid op).sent (fabric.world.parties pid).superstep op.peer := by
  rcases (Operation.mem_places puts.isPut).mp member with ⟨places, among, rfl⟩
  rw [sending, Relaxed.State.mem_sent_send]
  exact Or.inr ⟨(views.superstep pid).symm, rfl, List.mem_map.mpr ⟨places, among, rfl⟩⟩

theorem carries_post {item : Pending n} (member : item ∈ after.pending) :
    after.Carries (sending tables state pid op) item := by
  rcases puts.pending item member with old | ⟨copy, isCopy, rfl⟩
  · have carries := views.carries item old
    refine ⟨carries.kind, carries.source, carries.target, puts.older _ carries.requested, ?_, ?_⟩
    · intro value fetched
      rw [sending, Relaxed.State.mem_sent_send]
      exact Or.inl (carries.fetched value fetched)
    · intro unread
      rw [sending, Relaxed.State.mem_sent_send]
      exact Or.inl (carries.unfetched unread)
  · have arrives := views.arrives_post puts isCopy
    rcases (Operation.mem_places puts.isPut).mp isCopy with ⟨places, _, rfl⟩
    refine ⟨puts.isPut, rfl, rfl, puts.now isCopy, ?_, fun _ => arrives⟩
    intro value fetched
    cases fetched

theorem holds_post (p : Fin n) (place : ℕ) :
    after.Holds (sending tables state pid op) p place := by
  rw [Holds, puts.superstep, puts.memory]
  rcases views.holds p place with ⟨k, notEarlier, sent⟩ | ⟨same, left⟩
  · refine Or.inl ⟨k, notEarlier, ?_⟩
    rw [sending, Relaxed.State.mem_sent_send]
    exact Or.inl sent
  · refine Or.inr ⟨same, ?_⟩
    intro k notEarlier source member
    rw [puts.todo]
    rcases puts.news member with old | ⟨_, new⟩
    · rcases left k notEarlier source old with ⟨transfer, among, places⟩
      exact ⟨transfer, Or.inl among, places⟩
    · exact ⟨_, Or.inr ⟨_, new, rfl⟩, rfl, rfl⟩

end Posts

variable (views : fabric.Views c state) (known : fabric.world.Cached c)

include views known

theorem post (positive : 0 < maxMsgSize) (device : maxMsgSize < 2 ^ 32) {pid : Fin n} {task : Task}
    {op : Operation n} (permitted : Neighbourly tables c fabric (.post pid task op))
    (taken : Step maxMsgSize tables fabric (.post pid task op) after) :
    after.Views c (sending tables state pid op) := by
  rcases permitted with ⟨computing, isPut, pattern, buffered⟩
  have puts := puts_of_step isPut positive device taken
  have sends : 0 < c pid op.peer := by
    have fewer : (fabric.world.parties pid).verbs.numMsgsSync op.peer < c pid op.peer := pattern
    rw [known.numMsgsSync computing] at fewer
    omega
  exact
    { superstep := fun p => (views.superstep p).trans (puts.superstep p).symm
      computing := views.computing_post puts
      messages := views.messages_post puts
      buffered := puts.requested ▸ buffered
      requested := by
        intro k copy member
        rw [puts.superstep]
        rcases puts.news member with old | ⟨rfl, new⟩
        · exact views.requested k copy old
        · rcases (Operation.mem_places isPut).mp new with ⟨places, _, rfl⟩
          exact ⟨sends, Nat.le_refl _⟩
      sent := fun _ _ _ _ => views.sent_post puts
      carries := fun _ => views.carries_post puts
      holds := views.holds_post puts }

theorem store {item : Pending n} (taken : Step maxMsgSize tables fabric (.store item) after) :
    after.Views c state := by
  rcases taken with ⟨earlier, later, value, listed, fetched, world, stored, pending, requested⟩
  rcases mem_todo_replace [] listed pending with ⟨_, kept, _, _⟩
  have carries := views.carries item (listed ▸ List.mem_append_right _ List.mem_cons_self)
  have isOpen := fabric.isOpen item (listed ▸ List.mem_append_right _ List.mem_cons_self)
  rw [Pending.Open, carries.kind] at isOpen
  have notLate : (fabric.world.parties item.op.peer).superstep ≤ item.op.superstep :=
    Nat.le_trans (Nat.le_add_right _ _) (known.settled.late _ _ isOpen.1)
  refine ⟨world ▸ views.superstep, world ▸ views.computing, world ▸ views.messages,
    requested ▸ views.buffered, world ▸ requested ▸ views.requested, requested ▸ views.sent, ?_, ?_⟩
  · intro other member
    rw [pending] at member
    have old : other ∈ fabric.pending := by
      rw [listed]
      simp only [List.mem_append, List.mem_cons] at member ⊢
      exact member.imp_right Or.inr
    rcases views.carries other old with ⟨kind, source, target, asked, isFetched, unfetched⟩
    exact ⟨kind, source, target, requested ▸ asked, isFetched, unfetched⟩
  · intro p place
    rw [Holds, world, stored, requested]
    by_cases here : (p, place) = item.transfer.target
    · refine Or.inl ⟨item.op.superstep, ?_, ?_⟩
      · rw [← carries.target, ← here] at notLate
        exact notLate
      · have arrived := carries.fetched value fetched
        rw [← carries.target, ← here] at arrived
        rw [here, Function.update_self]
        exact arrived
    · rw [Function.update_of_ne here]
      rcases views.holds p place with sent | ⟨same, left⟩
      · exact Or.inl sent
      · refine Or.inr ⟨same, ?_⟩
        intro k notEarlier source member
        rcases left k notEarlier source member with ⟨transfer, among, isSource, isTarget⟩
        refine ⟨transfer, kept transfer among ?_, isSource, isTarget⟩
        rintro rfl
        exact here isTarget.symm

theorem complete {pid : Fin n} (next : after.world.Cached c)
    (log : ∀ p, (after.world.parties p).log = (fabric.world.parties p).log)
    (counted : (fabric.world.parties pid).superstep < (after.world.parties pid).taken) :
    state.Complete c pid := by
  intro peer sends
  have all : (fabric.world.parties peer).notifications pid (fabric.world.parties pid).superstep =
      c peer pid := by
    rw [← @World.Cached.notifications _ _ _ next peer pid _ counted, Party.notifications,
      Party.notifications, log]
  have notEarlier : (fabric.world.parties pid).superstep ≤
      (fabric.world.parties peer).superstep := known.superstep_le (all ▸ sends)
  rw [views.superstep, views.superstep, views.messages]
  rcases Nat.eq_or_lt_of_le notEarlier with now | later
  · exact Or.inr ⟨now.symm, now ▸ all⟩
  · exact Or.inl later

variable (symmetric : ∀ p q, 0 < c p q ↔ 0 < c q p)

include symmetric

/-- Nobody is sent anything for a superstep that is more than one ahead. -/
theorem near {k : ℕ} {copy : Address n × Address n} (member : copy ∈ fabric.requested k) :
    k ≤ (fabric.world.parties copy.2.1).superstep + 1 := by
  rcases views.requested k copy member with ⟨sends, posted⟩
  exact Nat.le_trans posted (known.skew ((symmetric _ _).mp sends))

/-- An address that no copy reaches has the value of the machine. -/
theorem clear {p : Fin n} {place : ℕ} (clear : fabric.Clear p place) :
    fabric.memory (p, place) = state.memory p place := by
  rcases views.holds p place with ⟨k, notEarlier, sent⟩ | ⟨same, _⟩
  · rcases views.sent k p place _ sent with ⟨source, member⟩
    have close : k ≤ (fabric.world.parties p).superstep + 1 := views.near known symmetric member
    rcases Nat.eq_or_lt_of_le notEarlier with rfl | later
    · exact absurd ⟨source, member⟩ clear.1
    · obtain rfl : k = (fabric.world.parties p).superstep + 1 := by omega
      exact absurd ⟨source, member⟩ clear.2
  · exact same

theorem write {pid : Fin n} {address : ℕ} (value : UInt8) (clear : fabric.Clear pid address)
    (noSource : ¬Source (fabric.requests pid) (pid, address)) :
    Views c { fabric with memory := Function.update fabric.memory (pid, address) value }
      { state with
        memory := Function.update state.memory pid
          (Function.update (state.memory pid) address value) } where
  superstep := views.superstep
  computing := views.computing
  messages := views.messages
  buffered := views.buffered
  requested := views.requested
  sent := views.sent
  carries := by
    intro item member
    have carries := views.carries item member
    refine ⟨carries.kind, carries.source, carries.target, carries.requested, carries.fetched, ?_⟩
    intro unread
    have kept : Function.update state.memory pid (Function.update (state.memory pid) address value)
        item.pid item.transfer.source.2 = state.memory item.pid item.transfer.source.2 := by
      by_cases own : item.pid = pid
      · rw [own, Function.update_self, Function.update_of_ne]
        -- a put whose bytes are not read yet is one of this superstep
        rintro rfl
        have isOpen := fabric.isOpen item member
        rw [Pending.Open, carries.kind] at isOpen
        have now := known.prompt _ _ (isOpen.2 unread)
        have requested := carries.requested
        have here : item.transfer.source = (pid, item.transfer.source.2) :=
          Prod.ext (carries.source.trans own) rfl
        rw [now, own, here] at requested
        exact noSource ⟨_, requested⟩
      · rw [Function.update_of_ne own]
    show (_, Function.update state.memory pid _ item.pid item.transfer.source.2) ∈ _
    rw [kept]
    exact carries.unfetched unread
  holds := by
    intro p place
    by_cases own : (p, place) = (pid, address)
    · cases own
      refine Or.inr ⟨?_, ?_⟩
      · show Function.update fabric.memory (pid, address) value (pid, address) =
          Function.update state.memory pid _ pid address
        rw [Function.update_self, Function.update_self, Function.update_self]
      · intro k notEarlier source member
        have close : k ≤ (fabric.world.parties pid).superstep + 1 :=
          views.near known symmetric member
        have atLeast : (fabric.world.parties pid).superstep ≤ k := notEarlier
        rcases Nat.eq_or_lt_of_le atLeast with rfl | later
        · exact absurd ⟨source, member⟩ clear.1
        · obtain rfl : k = (fabric.world.parties pid).superstep + 1 := by omega
          exact absurd ⟨source, member⟩ clear.2
    · have itsMemory : Function.update fabric.memory (pid, address) value (p, place) =
          fabric.memory (p, place) := Function.update_of_ne own ..
      have itsView : Function.update state.memory pid (Function.update (state.memory pid) address
          value) p place = state.memory p place := by
        by_cases here : p = pid
        · subst here
          rw [Function.update_self, Function.update_of_ne]
          rintro rfl
          exact own rfl
        · rw [Function.update_of_ne here]
      rcases views.holds p place with ⟨k, notEarlier, sent⟩ | ⟨same, left⟩
      · refine Or.inl ⟨k, notEarlier, ?_⟩
        show (place, Function.update fabric.memory (pid, address) value (p, place)) ∈ _
        rw [itsMemory]
        exact sent
      · exact Or.inr ⟨itsMemory.trans (same.trans itsView.symm), left⟩

theorem fetch {item : Pending n} (taken : Step maxMsgSize tables fabric (.fetch item) after) :
    after.Views c state := by
  rcases taken with ⟨earlier, later, listed, unread, world, sameMemory, pending, requested⟩
  let fetched : Pending n := { item with transfer :=
    { item.transfer with fetched := some (fabric.memory item.transfer.source) } }
  rcases mem_todo_replace [fetched] listed pending with ⟨_, kept, now, _⟩
  have carries := views.carries item (listed ▸ List.mem_append_right _ List.mem_cons_self)
  -- the source is that of a put of this superstep, so that no copy reaches it
  have isOpen := fabric.isOpen item (listed ▸ List.mem_append_right _ List.mem_cons_self)
  rw [Pending.Open, carries.kind] at isOpen
  have superstep := known.prompt _ _ (isOpen.2 unread)
  have here : item.transfer.source = (item.pid, item.transfer.source.2) :=
    Prod.ext carries.source rfl
  have isRequested := carries.requested
  have clear : fabric.Clear item.pid item.transfer.source.2 := by
    rw [superstep, here] at isRequested
    refine ⟨(views.buffered _).1.not_target isRequested, ?_⟩
    rintro ⟨source, member⟩
    exact ((views.buffered _).2 _ isRequested _ member).1 rfl
  have value : fabric.memory item.transfer.source =
      state.memory item.pid item.transfer.source.2 := by
    rw [here]
    exact views.clear known symmetric clear
  refine ⟨world ▸ views.superstep, world ▸ views.computing, world ▸ views.messages,
    requested ▸ views.buffered, world ▸ requested ▸ views.requested, requested ▸ views.sent, ?_, ?_⟩
  · intro other member
    rw [pending] at member
    have cases : other = fetched ∨ other ∈ fabric.pending := by
      rw [listed]
      simp only [List.mem_append, List.mem_cons] at member ⊢
      rcases member with old | new | old
      · exact Or.inr (Or.inl old)
      · exact Or.inl new
      · exact Or.inr (Or.inr (Or.inr old))
    rcases cases with rfl | old
    · refine ⟨carries.kind, carries.source, carries.target, requested ▸ isRequested, ?_, ?_⟩
      · intro itsValue isFetched
        cases isFetched
        rw [value]
        exact carries.unfetched unread
      · intro isUnread
        cases isUnread
    · rcases views.carries other old with ⟨kind, source, target, asked, isFetched, unfetched⟩
      exact ⟨kind, source, target, requested ▸ asked, isFetched, unfetched⟩
  · intro p place
    rw [Holds, world, sameMemory, requested]
    rcases views.holds p place with sent | ⟨same, left⟩
    · exact Or.inl sent
    · refine Or.inr ⟨same, ?_⟩
      intro k notEarlier source member
      rcases left k notEarlier source member with ⟨transfer, among, places⟩
      by_cases this : transfer = item.transfer
      · rw [this] at places
        exact ⟨_, now fetched (List.mem_singleton_self _), places⟩
      · exact ⟨transfer, kept transfer among this, places⟩

/-- Everything that is sent to a process is in place when it leaves its sync. -/
theorem arrived {pid : Fin n} (pending : after.pending = fabric.pending)
    (late : ∀ op ∈ after.world.travelling pid, (fabric.world.parties pid).superstep < op.superstep)
    {place : ℕ} (target : Target (fabric.requests pid) (pid, place)) :
    (place, fabric.memory (pid, place)) ∈
      state.sent (fabric.world.parties pid).superstep pid := by
  rcases target with ⟨source, asked⟩
  have now : ∀ k other, (fabric.world.parties pid).superstep ≤ k →
      (other, (pid, place)) ∈ fabric.requested k → k = (fabric.world.parties pid).superstep := by
    intro k other notEarlier also
    have close : k ≤ (fabric.world.parties pid).superstep + 1 := views.near known symmetric also
    by_contra isLater
    obtain rfl : k = (fabric.world.parties pid).superstep + 1 := by omega
    exact ((views.buffered _).2 _ asked _ also).2 rfl
  rcases views.holds pid place with ⟨k, notEarlier, sent⟩ | ⟨_, left⟩
  · rcases views.sent k pid place _ sent with ⟨other, also⟩
    rw [now k other notEarlier also] at sent
    exact sent
  · rcases left _ (Nat.le_refl _) source asked with ⟨_, ⟨item, member, rfl⟩, _, isTarget⟩
    have carries := views.carries item member
    have isOpen := after.isOpen item (pending ▸ member)
    rw [Pending.Open, carries.kind] at isOpen
    have toHere : item.op.peer = pid := carries.target.symm.trans (congrArg Prod.fst isTarget)
    have later := late item.op (toHere ▸ isOpen.1)
    have same := now item.op.superstep item.transfer.source (Nat.le_of_lt later)
      (isTarget ▸ carries.requested)
    omega

end Views

/-- What changes when a process leaves its sync -/
structure Leaves (fabric : Fabric n) (pid : Fin n) (party : Party n) (after : Fabric n) :
    Prop where
  parties : after.world.parties = Function.update fabric.world.parties pid party
  superstep : party.superstep = (fabric.world.parties pid).superstep + 1
  waiting : ¬(fabric.world.parties pid).Computing
  computing : party.Computing
  outstanding : party.outstanding = 0
  log : ∀ p, (after.world.parties p).log = (fabric.world.parties p).log
  memory : after.memory = fabric.memory
  pending : after.pending = fabric.pending
  requested : after.requested = fabric.requested

theorem leaves_of_step (known : fabric.world.Cached c) {pid : Fin n} {flag : Bool}
    (taken : Step maxMsgSize tables fabric (.leave pid flag) after) :
    ∃ party, fabric.Leaves pid party after := by
  rcases taken with ⟨⟨party, active, processed, moved⟩, further, sameMemory, pending, requested⟩
  have parties : after.world.parties = Function.update fabric.world.parties pid party := by
    rw [moved]
    rfl
  rw [parties, Function.update_self] at further
  rcases Party.look_active active processed with ⟨same, _⟩ | ⟨superstep, inactive⟩
  · omega
  have idle : party.phase = .idle :=
    (Party.phase_processSyncRequest processed).trans ((known.calm pid).idle active)
  have busy := Party.not_computing_of_active active
  refine ⟨party, parties, superstep, busy, ⟨idle, inactive⟩, ?_, ?_, sameMemory, pending,
    requested⟩
  · rw [Party.look_outstanding processed]
    exact (known.calm pid).outstanding busy
  · intro p
    rw [parties, Function.update_apply]
    split
    next here => exact here ▸ (Party.frame_processSyncRequest processed).2
    next => rfl

/-- The memory of a process after its sync -/
structure Gets (fabric : Fabric n) (state : Relaxed.State (Fin n) ℕ UInt8) (pid : Fin n)
    (view : ℕ → UInt8) : Prop where
  reached : ∀ place, Target (fabric.requests pid) (pid, place) →
    view place = fabric.memory (pid, place)
  kept : ∀ place, ¬Target (fabric.requests pid) (pid, place) →
    view place = state.memory pid place

open Classical in
theorem exists_gets (fabric : Fabric n) (state : Relaxed.State (Fin n) ℕ UInt8) (pid : Fin n) :
    ∃ view, fabric.Gets state pid view :=
  ⟨fun place => if Target (fabric.requests pid) (pid, place) then fabric.memory (pid, place)
      else state.memory pid place,
    fun _ target => if_pos target, fun _ noTarget => if_neg noTarget⟩

namespace Views

variable (views : fabric.Views c state)

include views

section Leaving

variable {pid : Fin n} {party : Party n} {view : ℕ → UInt8}
  (leaves : fabric.Leaves pid party after)

include leaves

theorem superstep_leave (p : Fin n) :
    (state.next pid view).superstep p = (after.world.parties p).superstep := by
  show Function.update state.superstep pid _ p = _
  rw [leaves.parties]
  by_cases here : p = pid
  · subst here
    rw [Function.update_self, Function.update_self, leaves.superstep, views.superstep]
  · rw [Function.update_of_ne here, Function.update_of_ne here]
    exact views.superstep p

theorem computing_leave (p : Fin n) :
    (state.next pid view).computing p ↔ (after.world.parties p).Computing := by
  show Function.update state.computing pid True p ↔ _
  rw [leaves.parties]
  by_cases here : p = pid
  · subst here
    rw [Function.update_self, Function.update_self]
    exact iff_of_true trivial leaves.computing
  · rw [Function.update_of_ne here, Function.update_of_ne here]
    exact views.computing p

theorem messages_leave (known : fabric.world.Cached c) (p q : Fin n) :
    (state.next pid view).messages p q =
      (after.world.parties p).notifications q (after.world.parties p).superstep := by
  show Function.update state.messages pid (fun _ => 0) p q = _
  by_cases here : p = pid
  · subst here
    rw [Function.update_self, Party.notifications, leaves.log, leaves.parties,
      Function.update_self, leaves.superstep]
    symm
    rw [Multiset.countP_eq_zero]
    intro op logged both
    have early := known.patterned.superstep p op logged
    omega
  · rw [Function.update_of_ne here, leaves.parties, Function.update_of_ne here]
    exact views.messages p q

theorem requested_leave {k : ℕ} {copy : Address n × Address n}
    (member : copy ∈ after.requested k) :
    0 < c copy.1.1 copy.2.1 ∧ k ≤ (after.world.parties copy.1.1).superstep := by
  rw [leaves.requested] at member
  rcases views.requested k copy member with ⟨sends, posted⟩
  refine ⟨sends, Nat.le_trans posted ?_⟩
  rw [leaves.parties, Function.update_apply]
  split
  next here =>
    rw [here, leaves.superstep]
    exact Nat.le_add_right _ _
  next => exact Nat.le_refl _

/-- The bytes of a process that leaves its sync have been read. -/
theorem carries_leave {item : Pending n} (member : item ∈ after.pending) :
    after.Carries (state.next pid view) item := by
  have carries := views.carries item (leaves.pending ▸ member)
  refine ⟨carries.kind, carries.source, carries.target, leaves.requested ▸ carries.requested,
    carries.fetched, fun unread => ?_⟩
  have isOpen := after.isOpen item member
  rw [Pending.Open, carries.kind] at isOpen
  have elsewhere : item.pid ≠ pid := by
    intro here
    have atDevice := isOpen.2 unread
    rw [here, leaves.parties, Function.update_self, leaves.outstanding] at atDevice
    exact Multiset.notMem_zero _ atDevice
  show (_, Function.update state.memory pid _ item.pid item.transfer.source.2) ∈ _
  rw [Function.update_of_ne elsewhere]
  exact carries.unfetched unread

theorem holds_leave_other {p : Fin n} (other : p ≠ pid) (place : ℕ) :
    after.Holds (state.next pid view) p place := by
  have itsMemory : (state.next pid view).memory p = state.memory p :=
    Function.update_of_ne other ..
  rw [Holds, leaves.memory, leaves.requested, todo, leaves.pending, leaves.parties,
    Function.update_of_ne other, itsMemory]
  exact views.holds p place

variable (known : fabric.world.Cached c) (symmetric : ∀ p q, 0 < c p q ↔ 0 < c q p)

include known symmetric

theorem holds_leave (gets : fabric.Gets state pid view) (place : ℕ) :
    after.Holds (state.next pid view) pid place := by
  have itsMemory : (state.next pid view).memory pid = view := Function.update_self ..
  rw [Holds, leaves.memory, leaves.requested, todo, leaves.pending, leaves.parties,
    Function.update_self, itsMemory, leaves.superstep]
  by_cases isTarget : Target (fabric.requests pid) (pid, place)
  · refine Or.inr ⟨(gets.reached place isTarget).symm, ?_⟩
    intro k later source member
    have close : k ≤ (fabric.world.parties pid).superstep + 1 := views.near known symmetric member
    obtain rfl : k = (fabric.world.parties pid).superstep + 1 := by omega
    rcases isTarget with ⟨other, asked⟩
    exact absurd rfl ((views.buffered _).2 _ asked _ member).2
  · rcases views.holds pid place with ⟨k, notEarlier, sent⟩ | ⟨same, left⟩
    · refine Or.inl ⟨k, ?_, sent⟩
      rcases Nat.eq_or_lt_of_le notEarlier with rfl | later
      · exact absurd (views.sent _ pid place _ sent) isTarget
      · exact later
    · exact Or.inr ⟨same.trans (gets.kept place isTarget).symm,
        fun k later => left k (Nat.le_of_succ_le later)⟩

/-- The messages of the superstep are delivered. -/
theorem delivered (gets : fabric.Gets state pid view) (next : after.world.Cached c)
    (counted : (fabric.world.parties pid).superstep < (after.world.parties pid).taken) :
    Relaxed.Delivered (state.sent (state.superstep pid) pid) (state.memory pid) view := by
  intro place
  rw [views.superstep]
  by_cases isTarget : Target (fabric.requests pid) (pid, place)
  · rw [gets.reached place isTarget]
    apply Or.inl
    apply views.arrived known symmetric leaves.pending _ isTarget
    intro op travels
    exact Nat.lt_of_lt_of_le counted (next.settled.late pid op travels)
  · refine Or.inr ⟨fun value sent => isTarget ?_, gets.kept place isTarget⟩
    exact views.sent _ pid place value sent

end Leaving

theorem leave (known : fabric.world.Cached c) (symmetric : ∀ p q, 0 < c p q ↔ 0 < c q p)
    {pid : Fin n} {flag : Bool} (taken : Step maxMsgSize tables fabric (.leave pid flag) after)
    (next : after.world.Cached c) : ∃ last, Relaxed.Step c state (.leave pid) last ∧
      after.Views c last := by
  rcases leaves_of_step known taken with ⟨party, leaves⟩
  rcases exists_gets fabric state pid with ⟨view, gets⟩
  have counted : (fabric.world.parties pid).superstep < (after.world.parties pid).taken := by
    rw [leaves.parties, Function.update_self, Party.taken, leaves.superstep]
    omega
  refine ⟨state.next pid view, ⟨fun computing =>
    leaves.waiting ((views.computing pid).mp computing),
    views.complete known next leaves.log counted, view,
    views.delivered leaves known symmetric gets next counted, rfl⟩, ?_⟩
  exact
    { superstep := views.superstep_leave leaves
      computing := views.computing_leave leaves
      messages := views.messages_leave leaves known
      buffered := leaves.requested ▸ views.buffered
      requested := fun _ _ => views.requested_leave leaves
      sent := leaves.requested ▸ views.sent
      carries := fun _ => views.carries_leave leaves
      holds := by
        intro p place
        by_cases here : p = pid
        · exact here ▸ views.holds_leave leaves known symmetric gets place
        · exact views.holds_leave_other leaves here place }

end Views

/-- The machine answers every action of the processes and of the device. -/
theorem Views.answered {start : Fin n → ℕ → UInt8} (views : before.Views c state)
    (symmetric : ∀ p q, 0 < c p q ↔ 0 < c q p) (positive : 0 < maxMsgSize)
    (device : maxMsgSize < 2 ^ 32) (known : before.world.Cached c) (next : after.world.Cached c)
    (permitted : Neighbourly tables c before action)
    (taken : Step maxMsgSize tables before action after) :
    ∃ last, (Relaxed.machine c start).Continues state (calls tables action) last ∧
      after.Views c last := by
  cases action with
  | read pid address value =>
      rcases taken with ⟨found, rfl⟩
      rcases permitted with ⟨computing, clear⟩
      have sees := views.clear known symmetric clear
      exact ⟨state, Relaxed.continues_call
        ⟨(views.computing pid).mpr computing, sees.symm.trans found, rfl⟩, views⟩
  | write pid address value =>
      have isAfter : after = { before with
        memory := Function.update before.memory (pid, address) value } := taken
      rcases permitted with ⟨computing, clear, noSource⟩
      rw [isAfter]
      exact ⟨_, Relaxed.continues_call ⟨(views.computing pid).mpr computing, rfl⟩,
        views.write known symmetric value clear noSource⟩
  | post pid task op =>
      rcases permitted with ⟨computing, isPut, pattern, buffered⟩
      have fewer : (before.world.parties pid).verbs.numMsgsSync op.peer < c pid op.peer := pattern
      rw [known.numMsgsSync computing, ← views.messages] at fewer
      refine ⟨_, Relaxed.continues_call
        ⟨(views.computing pid).mpr computing, by exact_mod_cast fewer, rfl⟩, ?_⟩
      exact views.post known positive device ⟨computing, isPut, pattern, buffered⟩ taken
  | enter pid task attr =>
      have computing : (before.world.parties pid).Computing := ⟨taken.1.1, permitted.1⟩
      refine ⟨_, Relaxed.continues_call ⟨(views.computing pid).mpr computing, ?_, rfl⟩,
        views.enter taken⟩
      intro peer
      have all : (before.world.parties pid).verbs.numMsgsSync peer = c pid peer :=
        permitted.2.2 peer
      rw [known.numMsgsSync computing, ← views.messages] at all
      exact_mod_cast all
  | leave pid flag =>
      rcases views.leave known symmetric taken next with ⟨last, leaves, isViews⟩
      exact ⟨last, Relaxed.continues_call leaves, isViews⟩
  | fetch item => exact ⟨state, .refl, views.fetch known symmetric taken⟩
  | store item => exact ⟨state, .refl, views.store known taken⟩
  | other worldAction =>
      rcases taken with ⟨step, noPost, noDrain, superstep, sameMemory, pending, requested⟩
      refine ⟨state, .refl, views.quiet (fun p => ?_) superstep (fun p => ?_) sameMemory pending
        requested⟩
      · exact (step.moves p).computing (superstep p) (noDrain p)
      · rcases (step.moves p).frame with ⟨log, _⟩ | ⟨task, kind, peer, isPost, _⟩
        · exact log
        · exact absurd isPost (noPost p task kind peer)

/-- A run of cached syncs is one of the machine. -/
theorem views_run (symmetric : ∀ p q, 0 < c p q ↔ 0 < c q p) (positive : 0 < maxMsgSize)
    (device : maxMsgSize < 2 ^ 32) {labels : List (Relaxed.Call (Fin n) ℕ UInt8)}
    (run : (overlapping maxMsgSize tables c devices memory).Runs labels fabric) :
    ∃ state, (Relaxed.machine c fun p place => memory (p, place)).Runs labels state ∧
      fabric.Views c state := by
  apply run.simulated _ (.initial devices memory)
  intro before state action after reached views permitted taken
  exact views.answered symmetric positive device (neighbourly_known symmetric reached)
    (neighbourly_known symmetric (reached.tail permitted taken)) permitted taken

/-- Users of cached syncs see a run of the machine of relaxed supersteps, every process finds in its
memory what it has there, wherever nothing is on its way, and no counter leaves its range. -/
theorem cached_relaxed (fits : World.Fits c) (symmetric : ∀ p q, 0 < c p q ↔ 0 < c q p)
    (positive : 0 < maxMsgSize) (device : maxMsgSize < 2 ^ 32)
    {labels : List (Relaxed.Call (Fin n) ℕ UInt8)}
    (run : (overlapping maxMsgSize tables c devices memory).Runs labels fabric) :
    (∃ state, (Relaxed.machine c fun p place => memory (p, place)).Runs labels state ∧
      (∀ p, state.superstep p = (fabric.world.parties p).superstep ∧
        (state.computing p ↔ (fabric.world.parties p).Computing)) ∧
      ∀ p place, fabric.Clear p place → fabric.memory (p, place) = state.memory p place) ∧
    fabric.world.Ints := by
  rcases views_run symmetric positive device run with ⟨state, runs, views⟩
  have known := neighbourly_known symmetric run.reachable
  refine ⟨⟨state, runs, fun p => ⟨views.superstep p, views.computing p⟩,
    fun p place => views.clear known symmetric⟩, ?_⟩
  exact World.Reachable.ints_of_pattern fits symmetric (neighbourly_reachable run.reachable).1

/-- Two processes put each other a byte, and the second one reads that of the first. -/
def swapCalls (p q : Fin n) : List (Relaxed.Call (Fin n) ℕ UInt8) :=
  [.send p q [(100, 101)], .send q p [(100, 101)], .enter p, .enter q, .leave p, .leave q,
    .read q 101 9]

theorem places_putByte (pid peer : Fin n) :
    (putByte peer).places pid (tenRegister n) = [(100, 101)] := by
  rw [Operation.places, addresses_putByte]
  rfl

theorem fits_pairwise : World.Fits (World.pairwise (n := 2)) := by
  unfold World.Fits
  decide

theorem buffered_first {requests : Set (Address n × Address n)} (apart : Apart requests) :
    Buffered (Function.update (fun _ => ∅) 0 requests) := by
  intro k
  by_cases first : k = 0
  · subst first
    rw [Function.update_self, Function.update_of_ne Nat.one_ne_zero]
    exact ⟨apart, fun _ _ _ member => absurd member (Set.notMem_empty _)⟩
  · rw [Function.update_of_ne first]
    exact ⟨apart_empty, fun _ member => absurd member (Set.notMem_empty _)⟩

theorem apart_swap : Apart ((∅ ∪ (putByte 1).copies 0 (tenRegister 2)) ∪
    (putByte 0).copies 1 (tenRegister 2)) := by
  rw [copies_putByte, copies_putByte]
  intro first one second two same
  have source : first.1.2 = 100 := by
    rcases one with (none | rfl) | rfl
    · exact absurd none (Set.notMem_empty _)
    all_goals rfl
  have target : second.2.2 = 101 := by
    rcases two with (none | rfl) | rfl
    · exact absurd none (Set.notMem_empty _)
    all_goals rfl
  rw [same, target] at source
  cases source

/-- Two processes have posted a message to each other. -/
theorem exists_swapped : ∃ one two : World 2,
    World.Step (.initial fun _ => .generous 2) (.post 0 5 .put 1) one ∧
    one.Step (.post 1 5 .put 0) two ∧ (one.parties 1).Computing ∧
    (one.parties 1).verbs.numMsgsSync 0 = 0 ∧ (one.parties 1).superstep = 0 ∧
    (∀ p q, (two.parties p).verbs.numMsgsSync q = World.pairwise p q) ∧
    ∀ p, (two.parties p).verbs.numMsgs = (two.parties p).unpolled.card ∧
      (two.parties p).Computing ∧ (two.parties p).verbs.syncCached = false ∧
      (two.parties p).verbs.syncRequest.secondPhase = false ∧ (two.parties p).superstep = 0 :=
  ⟨_, _, rfl, rfl, ⟨rfl, rfl⟩, rfl, rfl,
    Fin.forall_fin_two.mpr
      ⟨Fin.forall_fin_two.mpr ⟨rfl, rfl⟩, Fin.forall_fin_two.mpr ⟨rfl, rfl⟩⟩,
    Fin.forall_fin_two.mpr
      ⟨⟨rfl, ⟨rfl, rfl⟩, rfl, rfl, rfl⟩, ⟨rfl, ⟨rfl, rfl⟩, rfl, rfl, rfl⟩⟩⟩

theorem runs_swapCalls : ∃ fabric,
    (overlapping 4 (fun _ => tenRegister 2) World.pairwise (fun _ => .generous 2) nine).Runs
      (swapCalls 0 1) fabric := by
  let permitted := Neighbourly (fun _ => tenRegister 2) (World.pairwise (n := 2))
  let system := overlapping 4 (fun _ => tenRegister 2) World.pairwise (fun _ => .generous 2) nine
  let mine := (putByte (1 : Fin 2)).copies 0 (tenRegister 2)
  let yours := (putByte (0 : Fin 2)).copies 1 (tenRegister 2)
  let once : ℕ → Set (Address 2 × Address 2) := Function.update (fun _ => ∅) 0 (∅ ∪ mine)
  have free : Unhindered permitted (calls fun _ => tenRegister 2) := {
    fetch := fun _ _ => ⟨trivial, rfl⟩
    store := fun _ _ => ⟨trivial, rfl⟩
    inner := fun _ _ _ => ⟨trivial, rfl⟩ }
  rcases exists_swapped with ⟨one, two, first, second, computing, none, isZero, sent, party⟩
  have started : system.Runs [] (clean (.initial fun _ => .generous 2) nine fun _ => ∅) := .refl
  have posts : permitted (clean (.initial fun _ => .generous 2) nine fun _ => ∅)
      (.post 0 5 (putByte 1)) :=
    ⟨⟨rfl, rfl⟩, rfl, Int.zero_lt_one, buffered_first (apart_putByte 0 1)⟩
  have posted : system.Runs [.send 0 1 [(100, 101)]]
      (clean one (Function.update nine (1, 101) 9) once) := runs_byte free started first posts
  have twice : Function.update once (one.parties 1).superstep
      (once (one.parties 1).superstep ∪ yours) =
        Function.update (fun _ => ∅) 0 (∅ ∪ mine ∪ yours) := by
    have now : once 0 = ∅ ∪ mine := Function.update_self ..
    rw [isZero, now]
    exact Function.update_idem ..
  have answers : permitted (clean one (Function.update nine (1, 101) 9) once)
      (.post 1 5 (putByte 0)) := by
    refine ⟨computing, rfl, ?_, ?_⟩
    · show (one.parties 1).verbs.numMsgsSync 0 < _
      rw [none]
      exact Int.zero_lt_one
    · show Buffered (Function.update once (one.parties 1).superstep
        (once (one.parties 1).superstep ∪ yours))
      rw [twice]
      exact buffered_first apart_swap
  have both : system.Runs ((swapCalls 0 1).take 2) (clean two _ (Function.update once
      (one.parties 1).superstep (once (one.parties 1).superstep ∪ yours))) :=
    runs_byte free posted second answers
  rw [twice] at both
  rcases runs_arrived free both (fun _ => 6) .cached
    (fun _ p _ same => ⟨same ▸ (party p).2.1.2, rfl, fun q => same ▸ sent p q⟩)
    (fun p => (party p).1) (fun p => (party p).2.1)
    (fun p q => (party p).2.2.1.trans (party q).2.2.1.symm) with
    ⟨arrived, entered, nothing, asked⟩
  choose events asks using asked
  rcases runs_released World.pairwise_symmetric (fun _ _ => trivial)
    (neighbourly_reachable entered.reachable).1 entered (Nat.two_pow_pos 31) nothing
    (fun p => (asks p).idle) (fun p => (asks p).isActive) (fun p => (asks p).withBarrier)
    (fun p => (asks p).keeps.secondPhase.trans (party p).2.2.2.1)
    (fun p => (asks p).keeps.superstep.trans (party p).2.2.2.2) with ⟨after, left, ended⟩
  have clear : ∀ k, 0 < k → ¬Target (Function.update
      (fun _ => (∅ : Set (Address 2 × Address 2))) 0 (∅ ∪ mine ∪ yours) k) (1, 101) := by
    rintro k positive ⟨source, member⟩
    rw [Function.update_of_ne (Nat.ne_of_gt positive)] at member
    exact Set.notMem_empty _ member
  have later : 0 < (after.parties 1).superstep := by
    rw [(ended 1).2.2.2]
    exact Nat.one_pos
  exact ⟨_, @Transition.System.Continues.tail _ _ _ system _ _ _ _ (.read 1 101 9) left
    ⟨(ended 1).1, clear (after.parties 1).superstep later,
      clear ((after.parties 1).superstep + 1) (Nat.succ_pos _)⟩ ⟨rfl, rfl⟩⟩

theorem cached_relaxed_pair : ∃ state : Relaxed.State (Fin 2) ℕ UInt8,
    (Relaxed.machine World.pairwise fun p place => nine (p, place)).Runs (swapCalls 0 1) state := by
  rcases runs_swapCalls with ⟨_, run⟩
  rcases cached_relaxed fits_pairwise World.pairwise_symmetric (by decide) (by decide) run with
    ⟨⟨state, runs, _⟩, _⟩
  exact ⟨state, runs⟩

end Fabric

end IBVerbs

end Talpf
