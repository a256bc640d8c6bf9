import Mathlib.Algebra.Order.BigOperators.Group.List
import Talpf.IBVerbs.Counters
import Talpf.IBVerbs.Rejections
import Talpf.IBVerbs.SuperstepTags

/-!
# Sync requests

Any number of tasks of a process may be inside of `sync`, while the polling task
completes the one request that can be active.  `Site` is such a process with a
record of what has happened.  Over every run the record consists of one complete
account after the other, one for each accepted sync in the order of acceptance.
-/

namespace Talpf

namespace IBVerbs

variable {n : ℕ}

/-- Something that happens at a process. -/
inductive Note where
  /-- An operation of a task is posted. -/
  | posted (task : Task)
  /-- The completion of an operation is polled. -/
  | polled (task : Task)
  /-- A notification is counted in the ring. -/
  | arrived (entry : Fin 1024)
  /-- The vote has ended a sync. -/
  | aborted (task : Task)
  /-- A sync has found another request active. -/
  | rejected (task : Task)
  | accepted (task : Task) (barrier : Bool) (remoteMsgs : Int)
  /-- The messages of the request are subtracted from the ring. -/
  | counted (entry : Fin 1024) (remoteMsgs : Int)
  | ibarrier
  /-- The request is complete and its task is released. -/
  | finished (task : Option Task)
deriving DecidableEq

namespace Note

/-- The note is about an accepted sync. -/
def ofRequest : Note → Bool
  | .accepted .. | .counted .. | .ibarrier | .finished _ => true
  | .posted _ | .polled _ | .arrived _ | .aborted _ | .rejected _ => false

/-- What is added to the events of a task -/
def events (task : Task) : Note → Int
  | .posted other | .accepted other _ _ => if other = task then 1 else 0
  | .polled other | .finished (some other) => if other = task then -1 else 0
  | .finished none | .arrived _ | .aborted _ | .rejected _ | .counted .. | .ibarrier => 0

/-- What is added to an entry of the ring -/
def recvs (entry : Fin 1024) : Note → Int
  | .arrived other => if other = entry then 1 else 0
  | .counted other remoteMsgs => if other = entry then -remoteMsgs else 0
  | .posted _ | .polled _ | .aborted _ | .rejected _ | .accepted .. | .ibarrier | .finished _ => 0

/-- The note changes no counter. -/
def Idle (note : Note) : Prop := (∀ task, note.events task = 0) ∧ ∀ entry, note.recvs entry = 0

end Note

/-- A process with any number of tasks that call sync. -/
structure Site (n : ℕ) where
  /-- The process, of whose phase nothing is used -/
  party : Party n
  /-- How far the sync of each task has come. -/
  phases : Task → SyncPhase n
  /-- What has happened so far -/
  notes : List Note

namespace Site

def initial (device : Device n) : Site n := ⟨.initial device, fun _ => .idle, []⟩

/-- The process as a task sees it -/
def enter (site : Site n) (task : Task) : Party n := { site.party with phase := site.phases task }

/-- The process after a step of the sync of a task -/
def leave (site : Site n) (task : Task) (party : Party n) (added : List Note) : Site n where
  party := party
  phases := Function.update site.phases task party.phase
  notes := site.notes ++ added

/-- The process after a step that belongs to no sync -/
def moved (site : Site n) (party : Party n) (added : List Note) : Site n :=
  { site with party := party, notes := site.notes ++ added }

/-- What a look at the request subtracts from the ring -/
def countedNotes (verbs : IBVerbs n) : List Note :=
  if verbs.syncRequest.withBarrier ∧ verbs.syncRequest.secondPhase then []
  else verbs.syncIndex.toList.map fun entry => .counted entry verbs.syncRequest.remoteMsgs

/-- What happens in a look at the request -/
def progressNotes (verbs : IBVerbs n) (flag : Bool) : List Note :=
  match verbs.processSyncRequest flag with
  | .waiting | .fault => []
  | .barrier _ => countedNotes verbs ++ [.ibarrier]
  | .complete _ task => countedNotes verbs ++ [.finished task]

inductive Action (n : ℕ) where
  | post (task : Task) (kind : OperationKind) (peer : Fin n)
  /-- The device completes an operation. -/
  | complete (op : Posted n)
  | localProgress (wcs : List (Posted n))
  | remoteProgress (immData : List (BitVec 32))
  /-- A sync returns after the vote. -/
  | abort (task : Task)
  /-- A sync reconnects, or fails to. -/
  | reconnect (task : Task)
  | drain (task : Task) (attr : SyncAttr)
  | readCounts (task : Task)
  /-- The exchange of counts gives a task its number of messages. -/
  | exchange (task : Task) (remoteMsgs : Int)
  /-- A sync makes its request or throws. -/
  | request (task : Task)
  | processSyncRequest (flag : Bool)

/-- One step of the process. -/
def Step (before : Site n) : Action n → Site n → Prop
  | .post task kind peer, after =>
      after = before.moved (before.party.post task kind peer) [.posted task]
  | .complete op, after => ∃ rest, before.party.outstanding = op ::ₘ rest ∧
      after = before.moved { before.party with
        outstanding := rest
        completed := op ::ₘ before.party.completed } []
  | .localProgress wcs, after => ∃ rest, before.party.completed = wcs + rest ∧
      after = before.moved (before.party.localProgress wcs rest)
        (wcs.map fun wc => .polled wc.task)
  | .remoteProgress immData, after =>
      after = before.moved
        { before.party with verbs := before.party.verbs.doRemoteProgress immData }
        (immData.map fun immData => .arrived (recvIndex immData))
  | .abort task, after => before.phases task = .idle ∧
      after = before.moved before.party [.aborted task]
  | .reconnect task, after => before.phases task = .idle ∧ ∃ verbs,
      Repaired before.party.verbs verbs ∧
        after = before.moved { before.party with verbs := verbs } []
  | .drain task attr, after => before.phases task = .idle ∧ ¬before.party.verbs.numMsgs > 0 ∧
      after = before.leave task { before.party with phase := .drained task attr } []
  | .readCounts task, after => ∃ attr, before.phases task = .drained task attr ∧
      after = before.leave task ((before.enter task).readCounts task attr) []
  | .exchange task remoteMsgs, after => ∃ attr counts,
      before.phases task = .counted task attr counts ∧
        after = before.leave task ((before.enter task).exchanged task attr remoteMsgs) []
  | .request task, after => ∃ barrier remoteMsgs,
      before.phases task = .ready task barrier remoteMsgs ∧
        after = ((before.enter task).request task barrier remoteMsgs).elim
          (before.leave task { before.party with phase := .idle } [.rejected task])
          fun party => before.leave task party [.accepted task barrier remoteMsgs]
  | .processSyncRequest flag, after => before.party.verbs.syncRequest.isActive = true ∧
      ∃ party, before.party.processSyncRequest flag = some party ∧
        after = before.moved party (progressNotes before.party.verbs flag)

/-- Anything may happen at any time. -/
abbrev Reachable (device : Device n) : Site n → Prop :=
  Transition.Reachable Step (fun _ _ => True) (initial device)

/-- An accepted sync that is complete. -/
structure Ticket where
  task : Task
  barrier : Bool
  remoteMsgs : Int
  /-- Where its messages were counted -/
  entry : Fin 1024

/-- The complete account of an accepted sync: its messages are counted, its barrier, if it has one,
is started, and its task is released, each once and in this order. -/
def Ticket.notes (ticket : Ticket) : List Note :=
  .accepted ticket.task ticket.barrier ticket.remoteMsgs ::
    .counted ticket.entry ticket.remoteMsgs ::
      ((if ticket.barrier then [.ibarrier] else []) ++ [.finished (some ticket.task)])

/-- How far the accepted sync has come that is not complete. -/
inductive Stage where
  | free
  /-- Its messages have not been counted. -/
  | waiting (task : Task) (barrier : Bool) (remoteMsgs : Int)
  /-- Its barrier is started. -/
  | inBarrier (task : Task) (remoteMsgs : Int) (entry : Fin 1024)

namespace Stage

def notes : Stage → List Note
  | .free => []
  | .waiting task barrier remoteMsgs => [.accepted task barrier remoteMsgs]
  | .inBarrier task remoteMsgs entry =>
      [.accepted task true remoteMsgs, .counted entry remoteMsgs, .ibarrier]

/-- The request as it is at a stage. -/
def Describes : Stage → SyncRequest → Prop
  | .free, request => request.isActive = false ∧ request.task = none ∧ request.secondPhase = false
  | .waiting task barrier remoteMsgs, request =>
      request = ⟨true, barrier, remoteMsgs, some task, false⟩
  | .inBarrier task _ _, request => request = ⟨true, true, 0, some task, true⟩

/-- Where messages of the sync have been counted -/
def entries : Stage → List (Fin 1024)
  | .free | .waiting .. => []
  | .inBarrier _ _ entry => [entry]

end Stage

/-- The accepted syncs are completed one after the other. -/
structure Orderly (site : Site n) (done : List Ticket) (stage : Stage) : Prop where
  requests : site.notes.filter Note.ofRequest = done.flatMap Ticket.notes ++ stage.notes
  syncRequest : stage.Describes site.party.verbs.syncRequest
  syncCounter : site.party.verbs.syncCounter = BitVec.ofNat 32 done.length
  /-- The messages of each sync are counted in the entry of its superstep. -/
  entries : done.map (fun ticket => ticket.entry.val) = (List.range done.length).map (· % 1024)
  entry : ∀ entry ∈ stage.entries, entry.val = done.length % 1024

/-- The event counters and the ring are what the notes add up to, and no message is counted before
it has arrived. -/
structure Accounted (site : Site n) : Prop where
  events : ∀ task, site.party.events task = (site.notes.map (Note.events task)).sum
  recvs : ∀ entry, site.party.verbs.recvCounts entry = (site.notes.map (Note.recvs entry)).sum
  arrived : ∀ entry, 0 ≤ site.party.verbs.recvCounts entry

end Site

/-- Everything that happens in a look at the request of a process. -/
theorem progress_cases {before after : Party n} {flag : Bool}
    (processed : before.processSyncRequest flag = some after) :
    (after = before ∧ Site.progressNotes before.verbs flag = []) ∨
      ((before.verbs.syncRequest.withBarrier = true ∧
          before.verbs.syncRequest.secondPhase = true) ∧
        after = { before with
          verbs := before.verbs.finishRequest
          events := before.verbs.syncRequest.task.elim before.events (eventsDecrease before.events)
          superstep := before.superstep + 1 } ∧
        Site.progressNotes before.verbs flag = [.finished before.verbs.syncRequest.task]) ∨
      ∃ entry, ¬(before.verbs.syncRequest.withBarrier = true ∧
          before.verbs.syncRequest.secondPhase = true) ∧
        before.verbs.syncIndex = some entry ∧
        before.verbs.syncRequest.remoteMsgs ≤ before.verbs.recvCounts entry ∧
        ((before.verbs.syncRequest.withBarrier = true ∧
            after = { before with
              verbs := { before.verbs.takeRecvs entry with
                syncRequest :=
                  { (before.verbs.takeRecvs entry).syncRequest with secondPhase := true } } } ∧
            Site.progressNotes before.verbs flag =
              [.counted entry before.verbs.syncRequest.remoteMsgs, .ibarrier]) ∨
          (before.verbs.syncRequest.withBarrier = false ∧
            after = { before with
              verbs := (before.verbs.takeRecvs entry).releaseRequest
              events :=
                before.verbs.syncRequest.task.elim before.events (eventsDecrease before.events)
              superstep := before.superstep + 1 } ∧
            Site.progressNotes before.verbs flag =
              [.counted entry before.verbs.syncRequest.remoteMsgs,
                .finished before.verbs.syncRequest.task])) := by
  rw [Party.processSyncRequest] at processed
  rw [Site.progressNotes, Site.countedNotes]
  rcases look_cases before.verbs flag with waits | faults | ⟨second, finishes⟩ |
    ⟨entry, first, index, enough, ⟨barrier, starts⟩ | ⟨barrier, releases⟩⟩
  · rw [waits] at processed ⊢
    cases processed
    exact Or.inl ⟨rfl, rfl⟩
  · rw [faults] at processed
    cases processed
  · rw [finishes] at processed ⊢
    cases processed
    rw [if_pos second]
    exact Or.inr (Or.inl ⟨second, rfl, rfl⟩)
  · rw [starts] at processed ⊢
    cases processed
    rw [if_neg first, index]
    exact Or.inr (Or.inr ⟨entry, first, rfl, enough, Or.inl ⟨barrier, rfl, rfl⟩⟩)
  · rw [releases] at processed ⊢
    cases processed
    rw [if_neg first, index]
    exact Or.inr (Or.inr ⟨entry, first, rfl, enough, Or.inr ⟨barrier, rfl, rfl⟩⟩)

/-- What the request machine reads is as it was. -/
structure SameRequest (before after : Party n) : Prop where
  syncRequest : after.verbs.syncRequest = before.verbs.syncRequest
  syncCounter : after.verbs.syncCounter = before.verbs.syncCounter
  recvCounts : after.verbs.recvCounts = before.verbs.recvCounts
  events : after.events = before.events

theorem sameRequest_readCounts (party : Party n) (task : Task) (attr : SyncAttr) :
    SameRequest party (party.readCounts task attr) := by
  rw [Party.readCounts]
  cases attr.mode with
  | cached =>
      dsimp only
      split <;> exact ⟨rfl, rfl, rfl, rfl⟩
  | default => exact ⟨rfl, rfl, rfl, rfl⟩
  | msg => exact ⟨rfl, rfl, rfl, rfl⟩
  | unknown => exact ⟨rfl, rfl, rfl, rfl⟩

theorem Repaired.sameRequest {party : Party n} {verbs : IBVerbs n}
    (repaired : Repaired party.verbs verbs) : SameRequest party { party with verbs := verbs } := by
  rcases repaired with ⟨_, _, _, rfl⟩
  exact ⟨rfl, rfl, rfl, rfl⟩

/-- A batch of completions decreases the events. -/
theorem events_localProgress (events : Task → Int) (wcs : List (Posted n)) (task : Task) :
    wcs.foldl (fun events wc => eventsDecrease events wc.task) events task =
      events task + ((wcs.map fun wc => Note.polled wc.task).map (Note.events task)).sum := by
  induction wcs generalizing events with
  | nil => exact (Int.add_zero _).symm
  | cons wc wcs ih =>
      rw [List.foldl_cons, ih, Party.eventsDecrease_apply, List.map_cons, List.map_cons,
        List.sum_cons, Note.events]
      split <;> omega

/-- A batch of notifications is added to the ring. -/
theorem recvCounts_doRemoteProgress (verbs : IBVerbs n) (immData : List (BitVec 32))
    (entry : Fin 1024) :
    (verbs.doRemoteProgress immData).recvCounts entry = verbs.recvCounts entry +
      ((immData.map fun immData => .arrived (recvIndex immData)).map (Note.recvs entry)).sum := by
  rw [doRemoteProgress]
  induction immData generalizing verbs with
  | nil => exact (Int.add_zero _).symm
  | cons first rest ih =>
      rw [List.foldl_cons, ih, List.map_cons, List.map_cons, List.sum_cons, Note.recvs, countRecv]
      dsimp only
      rw [Function.update_apply]
      by_cases here : recvIndex first = entry
      · rw [if_pos here.symm, if_pos here, here]
        omega
      · rw [if_neg (Ne.symm here), if_neg here]
        omega

theorem recvCounts_takeRecvs (verbs : IBVerbs n) (taken entry : Fin 1024) :
    (verbs.takeRecvs taken).recvCounts entry = verbs.recvCounts entry +
      (if taken = entry then -verbs.syncRequest.remoteMsgs else 0) := by
  rw [takeRecvs]
  dsimp only
  rw [Function.update_apply]
  by_cases here : taken = entry
  · rw [if_pos here.symm, if_pos here, here]
    omega
  · rw [if_neg (Ne.symm here), if_neg here, Int.add_zero]

namespace Site

variable {before after site : Site n} {action : Action n} {done : List Ticket} {stage : Stage}

/-- What a step does to the request and to the counter of supersteps. -/
inductive Effect (before after : Site n) : Prop where
  | other
      (notes : after.notes.filter Note.ofRequest = before.notes.filter Note.ofRequest)
      (syncRequest : after.party.verbs.syncRequest = before.party.verbs.syncRequest)
      (syncCounter : after.party.verbs.syncCounter = before.party.verbs.syncCounter)
  | accepted (task : Task) (barrier : Bool) (remoteMsgs : Int)
      (inactive : before.party.verbs.syncRequest.isActive = false)
      (notes : after.notes.filter Note.ofRequest =
        before.notes.filter Note.ofRequest ++ [.accepted task barrier remoteMsgs])
      (syncRequest : after.party.verbs.syncRequest =
        ⟨true, barrier, remoteMsgs, some task, before.party.verbs.syncRequest.secondPhase⟩)
      (syncCounter : after.party.verbs.syncCounter = before.party.verbs.syncCounter)
  /-- The first phase of a request with barrier ends. -/
  | started (request : SyncRequest) (entry : Fin 1024)
      (was : before.party.verbs.syncRequest = request)
      (active : request.isActive = true) (barrier : request.withBarrier = true)
      (first : ¬(request.withBarrier = true ∧ request.secondPhase = true))
      (index : before.party.verbs.syncIndex = some entry)
      (notes : after.notes.filter Note.ofRequest =
        before.notes.filter Note.ofRequest ++ [.counted entry request.remoteMsgs, .ibarrier])
      (syncRequest : after.party.verbs.syncRequest =
        { request with remoteMsgs := 0, secondPhase := true })
      (syncCounter : after.party.verbs.syncCounter = before.party.verbs.syncCounter)
  /-- A request without barrier is complete. -/
  | released (request : SyncRequest) (entry : Fin 1024)
      (was : before.party.verbs.syncRequest = request)
      (active : request.isActive = true) (barrier : request.withBarrier = false)
      (index : before.party.verbs.syncIndex = some entry)
      (notes : after.notes.filter Note.ofRequest = before.notes.filter Note.ofRequest ++
        [.counted entry request.remoteMsgs, .finished request.task])
      (syncRequest : after.party.verbs.syncRequest =
        { request with remoteMsgs := 0, task := none, isActive := false })
      (syncCounter : after.party.verbs.syncCounter = before.party.verbs.syncCounter + 1)
  /-- The barrier of a request is complete. -/
  | finished (request : SyncRequest)
      (was : before.party.verbs.syncRequest = request)
      (active : request.isActive = true)
      (second : request.withBarrier = true ∧ request.secondPhase = true)
      (notes : after.notes.filter Note.ofRequest =
        before.notes.filter Note.ofRequest ++ [.finished request.task])
      (syncRequest : after.party.verbs.syncRequest =
        { request with task := none, secondPhase := false, isActive := false })
      (syncCounter : after.party.verbs.syncCounter = before.party.verbs.syncCounter + 1)

/-- A step whose notes are about no accepted sync. -/
theorem Effect.of_silent {added : List Note}
    (syncRequest : after.party.verbs.syncRequest = before.party.verbs.syncRequest)
    (syncCounter : after.party.verbs.syncCounter = before.party.verbs.syncCounter)
    (notes : after.notes = before.notes ++ added)
    (silent : ∀ note ∈ added, note.ofRequest = false) : Effect before after := by
  have nothing : added.filter Note.ofRequest = [] :=
    List.filter_eq_nil_iff.mpr fun note mem => Bool.not_eq_true _ ▸ silent note mem
  refine .other ?_ syncRequest syncCounter
  rw [notes, List.filter_append, nothing, List.append_nil]

/-- A look at the request. -/
theorem Effect.of_look (active : before.party.verbs.syncRequest.isActive = true) {flag : Bool}
    {party : Party n} (processed : before.party.processSyncRequest flag = some party) :
    Effect before (before.moved party (progressNotes before.party.verbs flag)) := by
  rcases progress_cases processed with ⟨rfl, notes⟩ | ⟨second, rfl, notes⟩ |
    ⟨entry, first, index, _, ⟨barrier, rfl, notes⟩ | ⟨barrier, rfl, notes⟩⟩
  · rw [notes]
    exact .of_silent rfl rfl rfl nofun
  · rw [notes]
    exact .finished _ rfl active second (List.filter_append _ _) rfl rfl
  · rw [notes]
    exact .started _ entry rfl active barrier first index (List.filter_append _ _) rfl rfl
  · rw [notes]
    exact .released _ entry rfl active barrier index (List.filter_append _ _) rfl rfl

theorem Step.effect (step : Step before action after) : Effect before after := by
  cases action with
  | post task kind peer =>
      rw [step]
      have same : (kind.post before.party.verbs peer).syncRequest =
          before.party.verbs.syncRequest ∧ (kind.post before.party.verbs peer).syncCounter =
          before.party.verbs.syncCounter := by
        rw [OperationKind.post_eq]
        exact ⟨rfl, rfl⟩
      exact .other (by simp [moved, Note.ofRequest]) same.1 same.2
  | complete op =>
      rcases step with ⟨rest, _, rfl⟩
      exact .of_silent rfl rfl rfl nofun
  | localProgress wcs =>
      rcases step with ⟨rest, _, rfl⟩
      refine .of_silent rfl rfl rfl ?_
      intro note mem
      rcases List.mem_map.mp mem with ⟨wc, _, rfl⟩
      rfl
  | remoteProgress immData =>
      rw [step, Party.doRemoteProgress_eq]
      refine .of_silent rfl rfl rfl ?_
      intro note mem
      rcases List.mem_map.mp mem with ⟨data, _, rfl⟩
      rfl
  | abort task =>
      rcases step with ⟨_, rfl⟩
      exact .other (by simp [moved, Note.ofRequest]) rfl rfl
  | reconnect task =>
      rcases step with ⟨_, verbs, repaired, rfl⟩
      have same := repaired.sameRequest
      exact .of_silent same.syncRequest same.syncCounter rfl nofun
  | drain task attr =>
      rcases step with ⟨_, _, rfl⟩
      exact .of_silent rfl rfl rfl nofun
  | readCounts task =>
      rcases step with ⟨attr, _, rfl⟩
      have same := sameRequest_readCounts (before.enter task) task attr
      exact .of_silent same.syncRequest same.syncCounter rfl nofun
  | exchange task remoteMsgs =>
      rcases step with ⟨attr, counts, _, rfl⟩
      exact .of_silent rfl rfl rfl nofun
  | request task =>
      rcases step with ⟨barrier, remoteMsgs, _, rfl⟩
      rw [Party.request, requestSync]
      split
      next => exact .other (by simp [leave, Note.ofRequest]) rfl rfl
      next inactive =>
        exact .accepted task barrier remoteMsgs (Bool.not_eq_true _ ▸ inactive)
          (by simp [leave, Note.ofRequest]) rfl rfl
  | processSyncRequest flag =>
      rcases step with ⟨active, party, processed, rfl⟩
      exact .of_look active processed

/-- The stages of an active request -/
theorem Stage.Describes.active {request : SyncRequest} (described : stage.Describes request)
    (active : request.isActive = true) :
    (∃ task barrier remoteMsgs, stage = .waiting task barrier remoteMsgs ∧
      request = ⟨true, barrier, remoteMsgs, some task, false⟩) ∨
    ∃ task remoteMsgs entry, stage = .inBarrier task remoteMsgs entry ∧
      request = ⟨true, true, 0, some task, true⟩ := by
  cases stage with
  | free =>
      rw [described.1] at active
      cases active
  | waiting task barrier remoteMsgs => exact Or.inl ⟨task, barrier, remoteMsgs, rfl, described⟩
  | inBarrier task remoteMsgs entry => exact Or.inr ⟨task, remoteMsgs, entry, rfl, described⟩

theorem orderly_initial (device : Device n) : (initial device).Orderly [] .free where
  requests := rfl
  syncRequest := ⟨rfl, rfl, rfl⟩
  syncCounter := rfl
  entries := rfl
  entry := nofun

/-- The entry that the request looks at is that of its superstep. -/
theorem Orderly.index (orderly : Orderly site done stage) {entry : Fin 1024}
    (index : site.party.verbs.syncIndex = some entry) : entry.val = done.length % 1024 := by
  have counter : site.party.verbs.syncCounter.toNat % 1024 = done.length % 1024 := by
    rw [orderly.syncCounter, BitVec.toNat_ofNat]
    exact Nat.mod_mod_of_dvd _ ⟨2 ^ 22, rfl⟩
  have value : site.party.verbs.syncIndex.map Fin.val = some entry.val := by
    rw [index]
    rfl
  by_cases small : site.party.verbs.syncCounter.toNat < 2 ^ 31
  · rw [syncIndex_of_nonneg small, Option.some.injEq] at value
    rw [← value, counter]
  · rw [syncIndex_of_neg (not_lt.mp small), counter] at value
    split at value
    next divides =>
      rw [Option.some.injEq] at value
      rw [← value, divides]
    next => cases value

/-- The last of the accounts is complete. -/
theorem Orderly.complete (orderly : Orderly before done stage) (ticket : Ticket)
    {added : List Note} (whole : stage.notes ++ added = ticket.notes)
    (entry : ticket.entry.val = done.length % 1024)
    (notes : after.notes.filter Note.ofRequest = before.notes.filter Note.ofRequest ++ added)
    (free : Stage.free.Describes after.party.verbs.syncRequest)
    (syncCounter : after.party.verbs.syncCounter = before.party.verbs.syncCounter + 1) :
    after.Orderly (done ++ [ticket]) .free where
  requests := by
    rw [notes, orderly.requests, List.append_assoc, whole, List.flatMap_append,
      List.flatMap_singleton]
    exact (List.append_nil _).symm
  syncRequest := free
  syncCounter := by
    rw [syncCounter, orderly.syncCounter, List.length_append, BitVec.ofNat_add]
    rfl
  entries := by
    rw [List.map_append, orderly.entries, List.length_append, List.length_singleton,
      List.range_succ, List.map_append, List.map_singleton, List.map_singleton, entry]
  entry := nofun

/-- Every step keeps the accounts in order. -/
theorem Orderly.step (orderly : Orderly before done stage) (step : Step before action after) :
    ∃ done stage, after.Orderly done stage := by
  have described := orderly.syncRequest
  cases step.effect with
  | other notes syncRequest syncCounter =>
      refine ⟨done, stage, ?_, ?_, ?_, orderly.entries, orderly.entry⟩
      · rw [notes]
        exact orderly.requests
      · rw [syncRequest]
        exact described
      · rw [syncCounter]
        exact orderly.syncCounter
  | accepted task barrier remoteMsgs inactive notes syncRequest syncCounter =>
      cases stage with
      | free =>
          refine ⟨done, .waiting task barrier remoteMsgs, ?_, ?_, ?_, orderly.entries, nofun⟩
          · rw [notes, orderly.requests, Stage.notes, List.append_nil]
            rfl
          · rw [syncRequest, described.2.2]
            rfl
          · rw [syncCounter]
            exact orderly.syncCounter
      | waiting =>
          rw [described] at inactive
          cases inactive
      | inBarrier =>
          rw [described] at inactive
          cases inactive
  | started request entry was active barrier first index notes syncRequest syncCounter =>
      rw [was] at described
      rcases described.active active with ⟨task, _, remoteMsgs, rfl, rfl⟩ | ⟨_, _, _, rfl, rfl⟩
      · cases barrier
        refine ⟨done, .inBarrier task remoteMsgs entry, ?_, syncRequest, ?_, orderly.entries, ?_⟩
        · rw [notes, orderly.requests, List.append_assoc]
          rfl
        · rw [syncCounter]
          exact orderly.syncCounter
        · intro other mem
          rw [List.mem_singleton.mp mem]
          exact orderly.index index
      · exact absurd ⟨rfl, rfl⟩ first
  | released request entry was active barrier index notes syncRequest syncCounter =>
      rw [was] at described
      rcases described.active active with ⟨task, _, remoteMsgs, rfl, rfl⟩ | ⟨_, _, _, rfl, rfl⟩
      · cases barrier
        exact ⟨_, _, orderly.complete ⟨task, false, remoteMsgs, entry⟩ rfl (orderly.index index)
          notes (by rw [syncRequest]; exact ⟨rfl, rfl, rfl⟩) syncCounter⟩
      · cases barrier
  | finished request was active second notes syncRequest syncCounter =>
      rw [was] at described
      rcases described.active active with ⟨_, _, _, rfl, rfl⟩ | ⟨task, remoteMsgs, entry, rfl, rfl⟩
      · cases second.2
      · exact ⟨_, _, orderly.complete ⟨task, true, remoteMsgs, entry⟩ rfl
          (orderly.entry entry (List.mem_singleton_self entry)) notes
          (by rw [syncRequest]; exact ⟨rfl, rfl, rfl⟩) syncCounter⟩

theorem accounted_initial (device : Device n) : (initial device).Accounted where
  events := fun _ => rfl
  recvs := fun _ => rfl
  arrived := fun _ => le_refl 0

/-- What a step adds to the counters is what it notes. -/
theorem Accounted.extend (accounted : before.Accounted) {added : List Note}
    (notes : after.notes = before.notes ++ added)
    (events : ∀ task, after.party.events task =
      before.party.events task + (added.map (Note.events task)).sum)
    (recvs : ∀ entry, after.party.verbs.recvCounts entry =
      before.party.verbs.recvCounts entry + (added.map (Note.recvs entry)).sum)
    (arrived : ∀ entry, 0 ≤ after.party.verbs.recvCounts entry) : after.Accounted where
  events := by
    intro task
    rw [notes, List.map_append, List.sum_append, events, accounted.events]
  recvs := by
    intro entry
    rw [notes, List.map_append, List.sum_append, recvs, accounted.recvs]
  arrived := arrived

theorem sum_eq_zero {change : Note → Int} {added : List Note}
    (idle : ∀ note ∈ added, change note = 0) : (added.map change).sum = 0 := by
  apply List.sum_eq_zero
  intro value mem
  rcases List.mem_map.mp mem with ⟨note, noted, rfl⟩
  exact idle note noted

/-- A step that changes no counter. -/
theorem Accounted.same (accounted : before.Accounted) {added : List Note}
    (same : SameRequest before.party after.party) (notes : after.notes = before.notes ++ added)
    (idle : ∀ note ∈ added, note.Idle) : after.Accounted := by
  refine accounted.extend notes ?_ ?_ ?_
  · intro task
    rw [same.events, sum_eq_zero fun note mem => (idle note mem).1 task, Int.add_zero]
  · intro entry
    rw [same.recvCounts, sum_eq_zero fun note mem => (idle note mem).2 entry, Int.add_zero]
  · intro entry
    rw [same.recvCounts]
    exact accounted.arrived entry

/-- A task that is released has one event less. -/
theorem elim_eventsDecrease (events : Task → Int) (released : Option Task) (task : Task) :
    released.elim events (eventsDecrease events) task =
      events task + (Note.finished released).events task := by
  cases released with
  | none => exact (Int.add_zero _).symm
  | some waiting =>
      rw [Option.elim_some, Party.eventsDecrease_apply, Note.events]
      split <;> omega

/-- A look at the request subtracts only messages that have arrived. -/
theorem Accounted.look (accounted : before.Accounted) {flag : Bool} {party : Party n}
    (processed : before.party.processSyncRequest flag = some party) :
    (before.moved party (progressNotes before.party.verbs flag)).Accounted := by
  have left : ∀ entry other, before.party.verbs.syncRequest.remoteMsgs ≤
      before.party.verbs.recvCounts entry →
        0 ≤ (before.party.verbs.takeRecvs entry).recvCounts other := by
    intro entry other enough
    have arrived := accounted.arrived other
    rw [recvCounts_takeRecvs]
    split
    next here =>
      subst here
      omega
    next => omega
  have taken : ∀ entry (note : Note), (∀ other, note.recvs other = 0) → ∀ other,
      (before.party.verbs.takeRecvs entry).recvCounts other =
        before.party.verbs.recvCounts other +
          (List.map (Note.recvs other)
            [.counted entry before.party.verbs.syncRequest.remoteMsgs, note]).sum := by
    intro entry note idle other
    rw [List.map_cons, List.map_singleton, List.sum_cons, List.sum_singleton, idle, Int.add_zero]
    exact recvCounts_takeRecvs _ entry other
  rcases progress_cases processed with ⟨rfl, notes⟩ | ⟨second, rfl, notes⟩ |
    ⟨entry, first, index, enough, ⟨barrier, rfl, notes⟩ | ⟨barrier, rfl, notes⟩⟩
  · rw [notes]
    exact accounted.same ⟨rfl, rfl, rfl, rfl⟩ rfl nofun
  · rw [notes]
    refine accounted.extend rfl ?_ ?_ accounted.arrived
    · intro task
      rw [List.map_singleton, List.sum_singleton]
      exact elim_eventsDecrease _ _ task
    · exact fun entry => (Int.add_zero _).symm
  · rw [notes]
    refine accounted.extend rfl ?_ ?_ fun other => left entry other enough
    · exact fun task => (Int.add_zero _).symm
    · exact taken entry .ibarrier fun _ => rfl
  · rw [notes]
    refine accounted.extend rfl ?_ ?_ fun other => left entry other enough
    · intro task
      rw [List.map_cons, List.map_singleton, List.sum_cons, List.sum_singleton, Note.events,
        Int.zero_add]
      exact elim_eventsDecrease _ _ task
    · exact taken entry (.finished _) fun _ => rfl

theorem Accounted.post (accounted : before.Accounted) (task : Task) (kind : OperationKind)
    (peer : Fin n) :
    (before.moved (before.party.post task kind peer) [.posted task]).Accounted := by
  have sameRing : (kind.post before.party.verbs peer).recvCounts =
      before.party.verbs.recvCounts := by
    rw [OperationKind.post_eq]
    rfl
  refine accounted.extend rfl ?_ ?_ ?_
  · intro other
    rw [List.map_singleton, List.sum_singleton]
    exact Party.eventsIncrease_apply _ _ _
  · intro entry
    show (kind.post before.party.verbs peer).recvCounts entry = _
    rw [sameRing]
    exact (Int.add_zero _).symm
  · intro entry
    show 0 ≤ (kind.post before.party.verbs peer).recvCounts entry
    rw [sameRing]
    exact accounted.arrived entry

theorem Accounted.localProgress (accounted : before.Accounted) (wcs : List (Posted n))
    (rest : Multiset (Posted n)) :
    (before.moved (before.party.localProgress wcs rest)
      (wcs.map fun wc => .polled wc.task)).Accounted := by
  refine accounted.extend rfl (events_localProgress before.party.events wcs) ?_ accounted.arrived
  intro entry
  rw [sum_eq_zero, Int.add_zero]
  · rfl
  · intro note mem
    rcases List.mem_map.mp mem with ⟨wc, _, rfl⟩
    rfl

theorem Accounted.remoteProgress (accounted : before.Accounted) (immData : List (BitVec 32)) :
    (before.moved { before.party with verbs := before.party.verbs.doRemoteProgress immData }
      (immData.map fun immData => .arrived (recvIndex immData))).Accounted := by
  have added := recvCounts_doRemoteProgress before.party.verbs immData
  refine accounted.extend rfl ?_ added ?_
  · intro task
    rw [sum_eq_zero, Int.add_zero]
    · rfl
    · intro note mem
      rcases List.mem_map.mp mem with ⟨data, _, rfl⟩
      rfl
  · intro entry
    show 0 ≤ (before.party.verbs.doRemoteProgress immData).recvCounts entry
    rw [added]
    refine Int.add_nonneg (accounted.arrived entry) (List.sum_nonneg ?_)
    intro change mem
    rw [List.map_map] at mem
    rcases List.mem_map.mp mem with ⟨data, _, rfl⟩
    show 0 ≤ (Note.arrived (recvIndex data)).recvs entry
    rw [Note.recvs]
    split <;> decide

/-- A request that is accepted adds an event to its task. -/
theorem Accounted.request (accounted : before.Accounted) (task : Task) (barrier : Bool)
    (remoteMsgs : Int) :
    (((before.enter task).request task barrier remoteMsgs).elim
      (before.leave task { before.party with phase := .idle } [.rejected task])
      fun party => before.leave task party [.accepted task barrier remoteMsgs]).Accounted := by
  rw [Party.request, requestSync]
  split
  next =>
    refine accounted.same ⟨rfl, rfl, rfl, rfl⟩ rfl ?_
    intro note mem
    rw [List.mem_singleton.mp mem]
    exact ⟨fun _ => rfl, fun _ => rfl⟩
  next =>
    refine accounted.extend rfl ?_ (fun entry => (Int.add_zero _).symm) accounted.arrived
    intro other
    rw [List.map_singleton, List.sum_singleton]
    exact Party.eventsIncrease_apply _ _ _

theorem Accounted.step (accounted : before.Accounted) (step : Step before action after) :
    after.Accounted := by
  cases action with
  | post task kind peer =>
      rw [step]
      exact accounted.post task kind peer
  | complete op =>
      rcases step with ⟨rest, _, rfl⟩
      exact accounted.same ⟨rfl, rfl, rfl, rfl⟩ rfl nofun
  | localProgress wcs =>
      rcases step with ⟨rest, _, rfl⟩
      exact accounted.localProgress wcs rest
  | remoteProgress immData =>
      rw [step]
      exact accounted.remoteProgress immData
  | abort task =>
      rcases step with ⟨_, rfl⟩
      refine accounted.same ⟨rfl, rfl, rfl, rfl⟩ rfl ?_
      intro note mem
      rw [List.mem_singleton.mp mem]
      exact ⟨fun _ => rfl, fun _ => rfl⟩
  | reconnect task =>
      rcases step with ⟨_, verbs, repaired, rfl⟩
      exact accounted.same repaired.sameRequest rfl nofun
  | drain task attr =>
      rcases step with ⟨_, _, rfl⟩
      exact accounted.same ⟨rfl, rfl, rfl, rfl⟩ rfl nofun
  | readCounts task =>
      rcases step with ⟨attr, _, rfl⟩
      have same := sameRequest_readCounts (before.enter task) task attr
      exact accounted.same ⟨same.syncRequest, same.syncCounter, same.recvCounts, same.events⟩ rfl
        nofun
  | exchange task remoteMsgs =>
      rcases step with ⟨attr, counts, _, rfl⟩
      exact accounted.same ⟨rfl, rfl, rfl, rfl⟩ rfl nofun
  | request task =>
      rcases step with ⟨barrier, remoteMsgs, _, rfl⟩
      exact accounted.request task barrier remoteMsgs
  | processSyncRequest flag =>
      rcases step with ⟨_, party, processed, rfl⟩
      exact accounted.look processed

section Runs

variable {device : Device n}

theorem Reachable.orderly (run : Reachable device site) :
    ∃ done stage, site.Orderly done stage := by
  refine @Transition.Reachable.invariant _ _ Step _ _ site
    (fun site => ∃ done stage, site.Orderly done stage) run ?_ ?_
  · exact ⟨[], .free, orderly_initial device⟩
  · rintro before action after ⟨done, stage, orderly⟩ _ step
    exact orderly.step step

theorem Reachable.accounted (run : Reachable device site) : site.Accounted := by
  refine run.invariant (accounted_initial device) ?_
  intro before action after accounted _ step
  exact accounted.step step

end Runs

end Site

end IBVerbs

end Talpf
