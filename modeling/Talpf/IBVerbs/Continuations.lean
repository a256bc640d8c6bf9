import Talpf.IBVerbs.MemoryRuns
import Talpf.IBVerbs.Neighbours

/-!
# Supersteps with a memory

The device can always move its bytes, and processes that enter a sync together get
their requests accepted together.  So a run can go on whenever the users want it
to: their operations are carried out at once, and all of them come to the end of
the superstep.
-/

namespace Talpf

open Copying

variable {n : ℕ}

namespace IBVerbs

/-- A byte that has been read may still be written. -/
theorem Pending.Open.fetched {item : Pending n} {world : World n} (isOpen : item.Open world)
    (value : UInt8) :
    Pending.Open { item with transfer := { item.transfer with fetched := some value } } world := by
  rw [Pending.Open] at isOpen ⊢
  cases kind : item.kind <;> rw [kind] at isOpen
  · exact ⟨isOpen.1, nofun⟩
  · exact isOpen
  · exact ⟨isOpen.1, nofun⟩
  · exact ⟨isOpen.1, nofun⟩

/-- A post changes neither how far a process is with its sync nor what it has cached. -/
theorem World.post_frame {world after : World n} {pid peer : Fin n} {task : Task}
    {kind : OperationKind} (step : world.Step (.post pid task kind peer) after) (p : Fin n) :
    (after.parties p).phase = (world.parties p).phase ∧
      (after.parties p).verbs.syncRequest = (world.parties p).verbs.syncRequest ∧
      (after.parties p).verbs.syncCached = (world.parties p).verbs.syncCached ∧
      (after.parties p).superstep = (world.parties p).superstep := by
  have parties : after.parties p = Function.update world.parties pid
      ((world.parties pid).post task kind peer) p := congrArg (fun world => world.parties p) step
  rw [parties]
  by_cases own : p = pid
  · subst own
    rw [Function.update_self, Party.post, OperationKind.post_eq]
    exact ⟨rfl, rfl, rfl, rfl⟩
  · rw [Function.update_of_ne own]
    exact ⟨rfl, rfl, rfl, rfl⟩

namespace Fabric

/-- The device has nothing to do. -/
def clean (world : World n) (memory : Address n → UInt8)
    (requested : ℕ → Set (Address n × Address n)) : Fabric n :=
  ⟨world, memory, [], requested, fun _ none => absurd none List.not_mem_nil⟩

/-- Bytes are copied one after the other. -/
def copyAll (copies : List (Address n × Address n)) (memory : Address n → UInt8) :
    Address n → UInt8 :=
  copies.foldl (fun memory copy => Function.update memory copy.2 (memory copy.1)) memory

/-- What the device does, and what happens in syncs, is always allowed and shows nothing. -/
structure Unhindered {Label : Type} (permitted : Fabric n → Action n → Prop)
    (shows : Action n → List Label) : Prop where
  fetch : ∀ fabric item, permitted fabric (.fetch item) ∧ shows (.fetch item) = []
  store : ∀ fabric item, permitted fabric (.store item) ∧ shows (.store item) = []
  inner : ∀ fabric action, World.Inner action →
    permitted fabric (.other action) ∧ shows (.other action) = []

section Runs

variable {Label : Type} {maxMsgSize : ℕ}
  {tables : Fin n → CombinedMemoryRegister (MemorySlot n)}
  {permitted : Fabric n → Action n → Prop} {shows : Action n → List Label}
  {devices : Fin n → Device n} {start : Address n → UInt8} {labels : List Label}
  {world after : World n} {memory : Address n → UInt8}
  {requested : ℕ → Set (Address n × Address n)} {fabric : Fabric n}

/-- Silent steps go on with the run. -/
theorem runs_silent {action : Action n}
    (run : (under maxMsgSize tables permitted shows devices start).Runs labels fabric)
    (allowed : permitted fabric action ∧ shows action = []) {next : Fabric n}
    (taken : Step maxMsgSize tables fabric action next) :
    (under maxMsgSize tables permitted shows devices start).Runs labels next := by
  rw [← List.append_nil labels, ← allowed.2]
  exact @Transition.System.Continues.tail _ _ _
    (under maxMsgSize tables permitted shows devices start) _ _ _ _ action run allowed.1 taken

/-- All bytes are moved. -/
theorem runs_moved (free : Unhindered permitted shows) {pending : List (Pending n)}
    (unread : ∀ item ∈ pending, item.transfer.fetched = none)
    (isOpen : ∀ item ∈ pending, item.Open world)
    (run : (under maxMsgSize tables permitted shows devices start).Runs labels
      ⟨world, memory, pending, requested, isOpen⟩) :
    (under maxMsgSize tables permitted shows devices start).Runs labels
      (clean world (copyAll (pending.map fun item => (item.transfer.source, item.transfer.target))
        memory) requested) := by
  induction pending generalizing memory with
  | nil => exact run
  | cons item rest ih =>
      let value := memory item.transfer.source
      let read : Pending n := { item with transfer := { item.transfer with fetched := some value } }
      have stillOpen : ∀ other ∈ read :: rest, other.Open world := by
        intro other member
        rcases List.mem_cons.mp member with rfl | among
        · exact (isOpen item List.mem_cons_self).fetched value
        · exact isOpen other (List.mem_cons_of_mem _ among)
      have fetches : Step maxMsgSize tables ⟨world, memory, item :: rest, requested, isOpen⟩
          (.fetch item) ⟨world, memory, read :: rest, requested, stillOpen⟩ :=
        ⟨[], rest, rfl, unread item List.mem_cons_self, rfl, rfl, rfl, rfl⟩
      have fewer : ∀ other ∈ rest, other.Open world :=
        fun other among => isOpen other (List.mem_cons_of_mem _ among)
      have stores : Step maxMsgSize tables ⟨world, memory, read :: rest, requested, stillOpen⟩
          (.store read) ⟨world, Function.update memory item.transfer.target value, rest, requested,
            fewer⟩ := ⟨[], rest, value, rfl, rfl, rfl, rfl, rfl, rfl⟩
      have fetched := runs_silent run (free.fetch _ _) fetches
      exact ih (fun other among => unread other (List.mem_cons_of_mem _ among)) fewer
        (runs_silent fetched (free.store _ _) stores)

/-- An operation is posted, and its bytes are moved. -/
theorem runs_post (free : Unhindered permitted shows)
    (run : (under maxMsgSize tables permitted shows devices start).Runs labels
      (clean world memory requested)) {pid : Fin n} {task : Task} {op : Operation n}
    {requests : List SendWr}
    (posted : op.requests pid { (world.parties pid).verbs with memreg := tables pid } maxMsgSize
      task = some requests)
    (step : world.Step (.post pid task op.kind op.peer) after)
    (allowed : permitted (clean world memory requested) (.post pid task op)) :
    (under maxMsgSize tables permitted shows devices start).Runs
      (labels ++ shows (.post pid task op))
      (clean after (copyAll (requests.flatMap (SendWr.copies pid op.peer)) memory)
        (Function.update requested (world.parties pid).superstep
          (requested (world.parties pid).superstep ∪ op.copies pid (tables pid)))) := by
  let item := (world.parties pid).operation task op.peer
  have travels : item ∈ after.travelling op.peer := by
    rw [step]
    show item ∈ Function.update world.travelling op.peer _ op.peer
    rw [Function.update_self]
    exact Multiset.mem_cons_self _ _
  have atDevice : item ∈ (after.parties pid).outstanding := by
    rw [step]
    show item ∈ (Function.update world.parties pid _ pid).outstanding
    rw [Function.update_self]
    exact Multiset.mem_cons_self _ _
  have isOpen : ∀ other ∈ transfers pid op.kind item requests, other.Open after := by
    intro other member
    rcases List.mem_map.mp member with ⟨copy, _, rfl⟩
    rw [Pending.Open]
    dsimp only
    split
    · exact atDevice
    all_goals exact ⟨travels, fun _ => atDevice⟩
  have posts : Step maxMsgSize tables (clean world memory requested) (.post pid task op)
      ⟨after, memory, transfers pid op.kind item requests, _, isOpen⟩ :=
    ⟨requests, posted, step, rfl, rfl, rfl⟩
  have unread : ∀ other ∈ transfers pid op.kind item requests, other.transfer.fetched = none := by
    intro other member
    rcases List.mem_map.mp member with ⟨copy, _, rfl⟩
    rfl
  have moved := runs_moved free unread isOpen (@Transition.System.Continues.tail _ _ _
    (under maxMsgSize tables permitted shows devices start) _ _ _ _ _ run allowed posts)
  have copies : (transfers pid op.kind item requests).map
      (fun item => (item.transfer.source, item.transfer.target)) =
        requests.flatMap (SendWr.copies pid op.peer) := by
    rw [transfers, List.map_map]
    exact List.map_id _
  rw [copies] at moved
  exact moved

/-- What happens within syncs -/
theorem runs_inner (free : Unhindered permitted shows)
    (run : (under maxMsgSize tables permitted shows devices start).Runs labels
      (clean world memory requested))
    (inner : Transition.Reachable World.Step (fun _ => World.Inner) world after) :
    (under maxMsgSize tables permitted shows devices start).Runs labels
      (clean after memory requested) := by
  apply inner.invariant run
  intro before action next runs isInner step
  have noPost : ∀ pid task kind peer, action ≠ .post pid task kind peer := by
    rintro pid task kind peer rfl
    exact isInner
  have noDrain : ∀ pid task attr, action ≠ .drain pid task attr := by
    rintro pid task attr rfl
    exact isInner
  have noLook : ∀ pid flag, action ≠ .processSyncRequest pid flag := by
    rintro pid flag rfl
    exact isInner
  exact runs_silent runs (free.inner _ _ isInner)
    ⟨step, noPost, noDrain, World.superstep_step step noLook, rfl, rfl, rfl⟩

/-- Each process takes one step of its own. -/
theorem runs_each
    (run : (under maxMsgSize tables permitted shows devices start).Runs labels
      (clean world memory requested)) (action : Fin n → Action n) (party : Fin n → Party n)
    (next : ∀ parties p, parties p = world.parties p →
      (∀ q, parties q = world.parties q ∨ parties q = party q) →
        permitted (clean { world with parties := parties } memory requested) (action p) ∧
          Step maxMsgSize tables (clean { world with parties := parties } memory requested)
            (action p) (clean { world with parties := Function.update parties p (party p) } memory
              requested)) :
    (under maxMsgSize tables permitted shows devices start).Runs
      (labels ++ (List.finRange n).flatMap fun p => shows (action p))
      (clean { world with parties := party } memory requested) := by
  let stage : List (Fin n) → Fabric n := fun done => clean { world with
    parties := fun q => if q ∈ done then party q else world.parties q } memory requested
  have all : clean { world with parties := party } memory requested =
      stage (List.finRange n) := by
    simp [stage]
  have started :
      (under maxMsgSize tables permitted shows devices start).Runs labels (stage []) := by
    simpa [stage] using run
  rw [all]
  apply started.each stage (List.nodup_finRange n)
  intro done p fresh
  let parties : Fin n → Party n := fun q => if q ∈ done then party q else world.parties q
  have extended : (fun q => if q ∈ done ++ [p] then party q else world.parties q) =
      Function.update parties p (party p) := by
    funext q
    rw [Function.update_apply]
    by_cases here : q = p
    · simp [here]
    · simp [here, parties]
  have own : parties p = world.parties p := if_neg fresh
  have among : ∀ q, parties q = world.parties q ∨ parties q = party q := by
    intro q
    by_cases already : q ∈ done
    · exact Or.inr (if_pos already)
    · exact Or.inl (if_neg already)
  rcases next parties p own among with ⟨allowed, taken⟩
  rw [← extended] at taken
  exact @Transition.System.Continues.single _ _ _
    (under maxMsgSize tables permitted shows devices start) _ _ (action p) allowed taken

/-- All processes come to the end of the superstep: their operations are complete, their requests
are accepted, and all notifications have arrived. -/
theorem runs_arrived (free : Unhindered permitted shows)
    (run : (under maxMsgSize tables permitted shows devices start).Runs labels
      (clean world memory requested)) (task : Fin n → Task) (attr : SyncAttr)
    (begins : ∀ reached p events, reached.parties p = (world.parties p).atRest events →
      permitted (clean reached memory requested) (.enter p (task p) attr))
    (conserved : ∀ p, (world.parties p).verbs.numMsgs = (world.parties p).unpolled.card)
    (computing : ∀ p, (world.parties p).Computing)
    (agree : ∀ p q, (world.parties p).verbs.syncCached = (world.parties q).verbs.syncCached) :
    ∃ arrived, (under maxMsgSize tables permitted shows devices start).Runs
        (labels ++ (List.finRange n).flatMap fun p => shows (.enter p (task p) attr))
        (clean arrived memory requested) ∧
      (∀ p, arrived.travelling p = 0) ∧
      ∀ p, ∃ events, ((world.parties p).atRest events).Asks attr (arrived.parties p) := by
  rcases World.exists_completed conserved with ⟨events, completes⟩
  have completed := runs_inner free run completes
  let party : Fin n → Party n := fun p =>
    { (world.parties p).atRest (events p) with phase := .drained (task p) attr }
  have entered := runs_each completed (fun p => .enter p (task p) attr) party (by
    intro parties p own _
    refine ⟨begins _ p (events p) own, ⟨?_, ?_, ?_⟩, rfl, rfl, rfl⟩
    · show (parties p).phase = .idle
      rw [own]
      exact (computing p).1
    · show ¬(parties p).verbs.numMsgs > 0
      rw [own]
      exact Int.lt_irrefl 0
    · show _ = World.move _ p { parties p with phase := .drained (task p) attr }
      rw [own]
      rfl)
  have drained : ∀ p, (party p).phase = .drained (task p) attr := fun _ => rfl
  rcases @World.exists_asks _ { world with parties := party } _ _ drained
    (fun p => (computing p).2) agree with ⟨arrived, asks, nothing, asked⟩
  refine ⟨arrived, runs_inner free entered asks, nothing, fun p => ⟨events p, ?_⟩⟩
  have begun : ((world.parties p).atRest (events p)).Keeps (party p) :=
    ⟨rfl, rfl, rfl, rfl, rfl, rfl, rfl⟩
  exact ⟨begun.trans (asked p).keeps, (asked p).idle, (asked p).isActive, (asked p).withBarrier,
    (asked p).syncCached⟩

/-- The request without barrier completes when the messages are there. -/
theorem exists_released {party : Party n} (without : party.verbs.syncRequest.withBarrier = false)
    {entry : Fin 1024} (index : party.verbs.syncIndex = some entry)
    (enough : party.verbs.syncRequest.remoteMsgs ≤ party.verbs.recvCounts entry) :
    ∃ after, party.processSyncRequest false = some after ∧ after.phase = party.phase ∧
      after.verbs.syncRequest.isActive = false ∧
      after.verbs.syncRequest.secondPhase = party.verbs.syncRequest.secondPhase ∧
      after.verbs.syncCached = party.verbs.syncCached ∧ after.superstep = party.superstep + 1 := by
  rw [Party.processSyncRequest, World.processSyncRequest_released false without index enough]
  exact ⟨_, rfl, rfl, rfl, rfl, rfl, rfl⟩

/-- All processes leave their cached syncs when the messages of the pattern have arrived. -/
theorem runs_released {c : Fin n → Fin n → ℕ} (symmetric : ∀ p q, 0 < c p q ↔ 0 < c q p)
    (leaves : ∀ fabric p, permitted fabric (.leave p false))
    (reached : World.Reachable devices (World.CachedPattern c) world)
    (run : (under maxMsgSize tables permitted shows devices start).Runs labels
      (clean world memory requested)) {superstep : ℕ} (small : superstep < 2 ^ 31)
    (nothing : ∀ p, world.travelling p = 0) (idle : ∀ p, (world.parties p).phase = .idle)
    (active : ∀ p, (world.parties p).verbs.syncRequest.isActive = true)
    (without : ∀ p, (world.parties p).verbs.syncRequest.withBarrier = false)
    (first : ∀ p, (world.parties p).verbs.syncRequest.secondPhase = false)
    (level : ∀ p, (world.parties p).superstep = superstep) :
    ∃ after, (under maxMsgSize tables permitted shows devices start).Runs
        (labels ++ (List.finRange n).flatMap fun p => shows (.leave p false))
        (clean after memory requested) ∧
      ∀ p, (after.parties p).Computing ∧
        (after.parties p).verbs.syncRequest.secondPhase = false ∧
        (after.parties p).verbs.syncCached = (world.parties p).verbs.syncCached ∧
        (after.parties p).superstep = superstep + 1 := by
  have tracked := World.Reachable.tracked reached
  have released : ∀ p, ∃ after, (world.parties p).processSyncRequest false = some after ∧
      after.phase = (world.parties p).phase ∧ after.verbs.syncRequest.isActive = false ∧
      after.verbs.syncRequest.secondPhase = (world.parties p).verbs.syncRequest.secondPhase ∧
      after.verbs.syncCached = (world.parties p).verbs.syncCached ∧
      after.superstep = (world.parties p).superstep + 1 := by
    intro p
    have counter : (world.parties p).verbs.syncCounter.toNat < 2 ^ 31 := by
      rw [(tracked.parties p).syncCounter, level, BitVec.toNat_ofNat]
      omega
    have read : ∀ q, (world.parties p).superstep < (world.parties q).epoch := by
      intro q
      have epoch := (tracked.parties q).epoch
      rw [active, if_pos rfl, idle] at epoch
      rw [epoch, level, level]
      exact Nat.lt_succ_self superstep
    rcases Option.map_eq_some_iff.mp (syncIndex_of_nonneg counter) with ⟨entry, index, _⟩
    exact exists_released (without p) index (World.Reachable.counts_of_pattern symmetric reached
      (nothing p) read (active p) (first p) index).2.2.2
  choose party looks phase inactive second cached further using released
  have left := runs_each run (fun p => .leave p false) party (by
    intro parties p own _
    refine ⟨leaves _ p, ⟨party p, ?_, ?_, rfl⟩, ?_, rfl, rfl, rfl⟩
    · show (parties p).verbs.syncRequest.isActive = true
      rw [own]
      exact active p
    · show (parties p).processSyncRequest false = some (party p)
      rw [own]
      exact looks p
    · show (parties p).superstep < (Function.update parties p (party p) p).superstep
      rw [Function.update_self, own, further]
      exact Nat.lt_succ_self _)
  refine ⟨_, left, fun p => ⟨⟨?_, inactive p⟩, ?_, cached p, ?_⟩⟩
  · exact (phase p).trans (idle p)
  · exact (second p).trans (first p)
  · rw [further, level]

end Runs

end Fabric

end IBVerbs

end Talpf
