import Talpf.IBVerbs.Expectations
import Talpf.IBVerbs.Ranges
import Talpf.IBVerbs.SyncRequests

/-!
# Runs of sync requests

The ring has entries of type `int`, and the look at a request finds no entry for a
counter that has become negative.  As long as neither the notifications that arrive
nor the accepted syncs are that many, every look goes through, and the requests of
a process are completed one after the other.
-/

namespace Talpf

namespace IBVerbs

variable {n : ℕ}

namespace Note

/-- A notification has arrived. -/
def arrives : Note → Bool
  | .arrived _ => true
  | _ => false

/-- A sync has been accepted. -/
def accepts : Note → Bool
  | .accepted .. => true
  | _ => false

end Note

namespace Site

variable {device : Device n} {before after site : Site n} {action : Action n}

/-- Fewer than `2 ^ 31` operations wait for the poll of their completion, an exchange gives a task a
number of messages, fewer than `2 ^ 31` notifications arrive, and at most that many syncs are
accepted. -/
def Bounded (site : Site n) : Action n → Prop
  | .post _ _ _ => site.party.unpolled.card + 1 < 2 ^ 31
  | .remoteProgress immData => site.notes.countP Note.arrives + immData.length < 2 ^ 31
  | .exchange _ remoteMsgs => IsCount remoteMsgs
  | .request _ => site.notes.countP Note.accepts < 2 ^ 31
  | _ => True

/-- No sync waits for fewer than no messages, and the ring holds no more than has arrived. -/
structure Within (site : Site n) : Prop where
  numMsgs : site.party.verbs.numMsgs = site.party.unpolled.card
  unpolled : site.party.unpolled.card < 2 ^ 31
  ready : ∀ itsTask task barrier remoteMsgs,
    site.phases itsTask = .ready task barrier remoteMsgs → 0 ≤ remoteMsgs
  syncCachedValue : 0 ≤ site.party.verbs.syncCachedValue
  remoteMsgs : 0 ≤ site.party.verbs.syncRequest.remoteMsgs
  recvCounts : ∀ entry, site.party.verbs.recvCounts entry ≤ site.notes.countP Note.arrives
  arrives : site.notes.countP Note.arrives < 2 ^ 31
  accepts : site.notes.countP Note.accepts ≤ 2 ^ 31

namespace Within

theorem initial (device : Device n) : (initial device).Within where
  numMsgs := rfl
  unpolled := Nat.two_pow_pos 31
  ready := by
    intro _ _ _ _ phase
    cases phase
  syncCachedValue := Int.le_refl 0
  remoteMsgs := Int.le_refl 0
  recvCounts _ := Int.le_refl 0
  arrives := Nat.two_pow_pos 31
  accepts := Nat.zero_le _

/-- A step that leaves the numbers alone -/
theorem moved (within : site.Within) {party : Party n} {added : List Note}
    (numMsgs : party.verbs.numMsgs = party.unpolled.card) (unpolled : party.unpolled.card < 2 ^ 31)
    (syncCachedValue : party.verbs.syncCachedValue = site.party.verbs.syncCachedValue)
    (syncRequest : party.verbs.syncRequest = site.party.verbs.syncRequest)
    (recvCounts : party.verbs.recvCounts = site.party.verbs.recvCounts)
    (arrives : added.countP Note.arrives = 0) (accepts : added.countP Note.accepts = 0) :
    (site.moved party added).Within where
  numMsgs := numMsgs
  unpolled := unpolled
  ready := within.ready
  syncCachedValue := syncCachedValue ▸ within.syncCachedValue
  remoteMsgs := syncRequest ▸ within.remoteMsgs
  recvCounts := by
    intro entry
    have atMost := within.recvCounts entry
    simp only [Site.moved, List.countP_append, arrives, recvCounts, Nat.add_zero]
    exact atMost
  arrives := by
    simp only [Site.moved, List.countP_append, arrives, Nat.add_zero]
    exact within.arrives
  accepts := by
    simp only [Site.moved, List.countP_append, accepts, Nat.add_zero]
    exact within.accepts

/-- A step of a sync that leaves the ring alone -/
theorem leave (within : site.Within) {task : Task} {party : Party n} {added : List Note}
    (numMsgs : party.verbs.numMsgs = site.party.verbs.numMsgs)
    (unpolled : party.unpolled = site.party.unpolled)
    (ready : ∀ itsTask barrier remoteMsgs, party.phase = .ready itsTask barrier remoteMsgs →
      0 ≤ remoteMsgs)
    (syncCachedValue : 0 ≤ party.verbs.syncCachedValue)
    (remoteMsgs : 0 ≤ party.verbs.syncRequest.remoteMsgs)
    (recvCounts : party.verbs.recvCounts = site.party.verbs.recvCounts)
    (arrives : added.countP Note.arrives = 0)
    (accepts : site.notes.countP Note.accepts + added.countP Note.accepts ≤ 2 ^ 31) :
    (site.leave task party added).Within where
  numMsgs := by
    show party.verbs.numMsgs = party.unpolled.card
    rw [numMsgs, unpolled]
    exact within.numMsgs
  unpolled := by
    show party.unpolled.card < 2 ^ 31
    rw [unpolled]
    exact within.unpolled
  ready := by
    intro itsTask other barrier remoteMsgs phase
    simp only [Site.leave, Function.update_apply] at phase
    split at phase
    next => exact ready _ _ _ phase
    next => exact within.ready _ _ _ _ phase
  syncCachedValue := syncCachedValue
  remoteMsgs := remoteMsgs
  recvCounts := by
    intro entry
    have atMost := within.recvCounts entry
    simp only [Site.leave, List.countP_append, arrives, recvCounts, Nat.add_zero]
    exact atMost
  arrives := by
    simp only [Site.leave, List.countP_append, arrives, Nat.add_zero]
    exact within.arrives
  accepts := by
    simp only [Site.leave, List.countP_append]
    exact accepts

theorem remoteProgress (within : site.Within) {immData : List (BitVec 32)}
    (fewer : site.notes.countP Note.arrives + immData.length < 2 ^ 31) :
    (site.moved { site.party with verbs := site.party.verbs.doRemoteProgress immData }
      (immData.map fun immData => .arrived (recvIndex immData))).Within := by
  have arrives : (immData.map fun immData => Note.arrived (recvIndex immData)).countP
      Note.arrives = immData.length := by
    rw [List.countP_map]
    exact congrFun List.countP_true immData
  have accepts : (immData.map fun immData => Note.arrived (recvIndex immData)).countP
      Note.accepts = 0 := by
    rw [List.countP_map]
    exact congrFun List.countP_false immData
  have recvCounts : ∀ entry, (site.party.verbs.doRemoteProgress immData).recvCounts entry ≤
      (site.notes.countP Note.arrives + immData.length : ℕ) := by
    intro entry
    have atMost := within.recvCounts entry
    have some := immData.countP_le_length (p := fun tag => recvIndex tag = entry)
    rw [recvCounts_batch]
    omega
  have same := Party.doRemoteProgress_eq site.party.verbs immData
  refine ⟨?_, within.unpolled, within.ready, ?_, ?_, ?_, ?_, ?_⟩
  · show (site.party.verbs.doRemoteProgress immData).numMsgs = site.party.unpolled.card
    rw [same]
    exact within.numMsgs
  · show 0 ≤ (site.party.verbs.doRemoteProgress immData).syncCachedValue
    rw [same]
    exact within.syncCachedValue
  · show 0 ≤ (site.party.verbs.doRemoteProgress immData).syncRequest.remoteMsgs
    rw [same]
    exact within.remoteMsgs
  · simp only [Site.moved, List.countP_append, arrives]
    exact recvCounts
  · simp only [Site.moved, List.countP_append, arrives]
    exact fewer
  · simp only [Site.moved, List.countP_append, accepts, Nat.add_zero]
    exact within.accepts

/-- The counts that are read or remembered are not negative. -/
theorem readCounts (within : site.Within) (task : Task) (attr : SyncAttr) :
    (site.leave task ((site.enter task).readCounts task attr) []).Within := by
  have same := sameRequest_readCounts (site.enter task) task attr
  have cached : ((site.enter task).readCounts task attr).verbs.syncCachedValue =
      site.party.verbs.syncCachedValue := by
    rw [Party.readCounts]
    cases attr.mode with
    | cached =>
        dsimp only
        split <;> rfl
    | default => rfl
    | msg => rfl
    | unknown => rfl
  have numMsgs : ((site.enter task).readCounts task attr).verbs.numMsgs =
      site.party.verbs.numMsgs := by
    rw [Party.readCounts]
    cases attr.mode with
    | cached =>
        dsimp only
        split <;> rfl
    | default => rfl
    | msg => rfl
    | unknown => rfl
  apply within.leave numMsgs (Party.unpolled_readCounts (site.enter task) task attr)
  · intro itsTask barrier remoteMsgs ready
    rw [Party.readCounts] at ready
    cases mode : attr.mode with
    | cached =>
        simp only [mode] at ready
        split at ready
        · cases ready
          exact within.syncCachedValue
        · cases ready
    | default => simp [mode] at ready
    | msg =>
        simp only [mode] at ready
        cases ready
        exact Int.natCast_nonneg _
    | unknown =>
        simp only [mode] at ready
        cases ready
        exact Int.le_refl 0
  · exact cached ▸ within.syncCachedValue
  · rw [same.syncRequest]
    exact within.remoteMsgs
  · exact same.recvCounts
  · rfl
  · exact within.accepts

theorem request (within : site.Within) {task : Task} {barrier : Bool} {remoteMsgs : Int}
    (ready : site.phases task = .ready task barrier remoteMsgs)
    (fewer : site.notes.countP Note.accepts < 2 ^ 31) :
    (((site.enter task).request task barrier remoteMsgs).elim
      (site.leave task { site.party with phase := .idle } [.rejected task])
      fun party => site.leave task party [.accepted task barrier remoteMsgs]).Within := by
  rw [Party.request, requestSync]
  split
  next =>
    exact within.leave rfl rfl (by simp) within.syncCachedValue within.remoteMsgs rfl rfl
      within.accepts
  next =>
    exact within.leave rfl rfl (by simp) within.syncCachedValue (within.ready task _ _ _ ready) rfl
      rfl fewer

/-- A look at the request takes what it waits for from the ring. -/
theorem look (within : site.Within) {flag : Bool} {party : Party n}
    (processed : site.party.processSyncRequest flag = some party) :
    (site.moved party (progressNotes site.party.verbs flag)).Within := by
  have fewer : ∀ entry other, (site.party.verbs.takeRecvs entry).recvCounts other ≤
      site.notes.countP Note.arrives := by
    intro entry other
    have atMost := within.recvCounts other
    have positive := within.remoteMsgs
    rw [recvCounts_takeRecvs]
    split <;> omega
  rcases progress_cases processed with ⟨rfl, notes⟩ | ⟨second, rfl, notes⟩ |
    ⟨entry, first, index, enough, ⟨barrier, rfl, notes⟩ | ⟨barrier, rfl, notes⟩⟩
  · rw [notes]
    exact within.moved within.numMsgs within.unpolled rfl rfl rfl rfl rfl
  · rw [notes]
    refine ⟨within.numMsgs, within.unpolled, within.ready, within.syncCachedValue,
      within.remoteMsgs, ?_, ?_, ?_⟩
    all_goals simp only [Site.moved, List.countP_append]
    exacts [within.recvCounts, within.arrives, within.accepts]
  · rw [notes]
    refine ⟨within.numMsgs, within.unpolled, within.ready, within.syncCachedValue, Int.le_refl 0,
      ?_, ?_, ?_⟩
    all_goals simp only [Site.moved, List.countP_append]
    exacts [fewer entry, within.arrives, within.accepts]
  · rw [notes]
    refine ⟨within.numMsgs, within.unpolled, within.ready, within.syncCachedValue, Int.le_refl 0,
      ?_, ?_, ?_⟩
    all_goals simp only [Site.moved, List.countP_append]
    exacts [fewer entry, within.arrives, within.accepts]

theorem step (within : before.Within) (bounded : before.Bounded action)
    (step : Step before action after) : after.Within := by
  cases action with
  | post task kind peer =>
      have same : (kind.post before.party.verbs peer).numMsgs = before.party.verbs.numMsgs + 1 ∧
          (kind.post before.party.verbs peer).syncCachedValue =
            before.party.verbs.syncCachedValue ∧
          (kind.post before.party.verbs peer).syncRequest = before.party.verbs.syncRequest ∧
          (kind.post before.party.verbs peer).recvCounts = before.party.verbs.recvCounts := by
        rw [OperationKind.post_eq]
        exact ⟨rfl, rfl, rfl, rfl⟩
      have more : (before.party.post task kind peer).unpolled.card =
          before.party.unpolled.card + 1 := by
        simp only [Party.unpolled, Party.post, Multiset.card_add, Multiset.card_cons]
        omega
      rw [step]
      refine within.moved ?_ (more ▸ bounded) same.2.1 same.2.2.1 same.2.2.2 rfl rfl
      rw [more, Nat.cast_succ, ← within.numMsgs]
      exact same.1
  | complete op =>
      rcases step with ⟨rest, first, rfl⟩
      have same : rest + op ::ₘ before.party.completed = before.party.unpolled := by
        rw [Party.unpolled, first, Multiset.add_cons, Multiset.cons_add]
      refine within.moved ?_ ?_ rfl rfl rfl rfl rfl
      · rw [Party.unpolled, same]
        exact within.numMsgs
      · rw [Party.unpolled, same]
        exact within.unpolled
  | localProgress wcs =>
      rcases step with ⟨rest, polled, rfl⟩
      have fewer : before.party.unpolled.card =
          (before.party.localProgress wcs rest).unpolled.card + wcs.length := by
        simp only [Party.unpolled, Party.localProgress, polled, Multiset.card_add,
          Multiset.coe_card]
        omega
      have numMsgs := within.numMsgs
      have unpolled := within.unpolled
      refine within.moved ?_ (by omega) rfl rfl rfl ?_ ?_
      · show before.party.verbs.numMsgs - wcs.length = _
        omega
      · rw [List.countP_map]
        exact congrFun List.countP_false wcs
      · rw [List.countP_map]
        exact congrFun List.countP_false wcs
  | remoteProgress immData =>
      rw [step]
      exact within.remoteProgress bounded
  | abort task =>
      rcases step with ⟨_, rfl⟩
      exact within.moved within.numMsgs within.unpolled rfl rfl rfl rfl rfl
  | reconnect task =>
      rcases step with ⟨_, verbs, ⟨_, _, _, rfl⟩, rfl⟩
      exact within.moved within.numMsgs within.unpolled rfl rfl rfl rfl rfl
  | drain task attr =>
      rcases step with ⟨_, _, rfl⟩
      exact within.leave rfl rfl (by simp) within.syncCachedValue within.remoteMsgs rfl rfl
        within.accepts
  | readCounts task =>
      rcases step with ⟨attr, _, rfl⟩
      exact within.readCounts task attr
  | exchange task remoteMsgs =>
      rcases step with ⟨attr, counts, _, rfl⟩
      refine within.leave rfl rfl ?_ bounded.1 within.remoteMsgs rfl rfl within.accepts
      intro _ _ _ ready
      cases ready
      exact bounded.1
  | request task =>
      rcases step with ⟨barrier, remoteMsgs, ready, rfl⟩
      exact within.request ready bounded
  | processSyncRequest flag =>
      rcases step with ⟨_, party, processed, rfl⟩
      exact within.look processed

end Within

/-- Every accepted sync is complete but the one that is active. -/
theorem Orderly.accepts {done : List Ticket} {stage : Stage} (orderly : site.Orderly done stage)
    (active : site.party.verbs.syncRequest.isActive = true) :
    site.notes.countP Note.accepts = done.length + 1 := by
  have among : site.notes.countP Note.accepts =
      (site.notes.filter Note.ofRequest).countP Note.accepts := by
    rw [List.countP_filter]
    apply List.countP_congr
    intro note _
    cases note <;> exact Iff.rfl
  have once : ∀ ticket : Ticket, ticket.notes.countP Note.accepts = 1 := by
    rintro ⟨task, barrier, remoteMsgs, entry⟩
    cases barrier <;> rfl
  have tickets : (done.flatMap Ticket.notes).countP Note.accepts = done.length := by
    simp [List.countP_flatMap, Function.comp_def, once]
  have described := orderly.syncRequest
  rw [among, orderly.requests, List.countP_append, tickets]
  rcases described.active active with ⟨_, _, _, rfl, _⟩ | ⟨_, _, _, rfl, _⟩
  · rfl
  · rfl

/-- A process can end supersteps one after the other. -/
def Rests (site : Site 2) (superstep : ℕ) : Prop :=
  Reachable (.generous 2) site ∧ site.party = World.ahead superstep ∧ site.phases 6 = .idle

theorem phases_leave (site : Site n) (task : Task) (party : Party n) (added : List Note) :
    (site.leave task party added).phases task = party.phase := Function.update_self ..

/-- The next sync of the process is accepted. -/
theorem Rests.asks {site : Site 2} {superstep : ℕ} (rests : site.Rests superstep) :
    ∃ site, Reachable (.generous 2) site ∧ site.party = World.asking superstep ∧
      site.phases 6 = .idle := by
  rcases site with ⟨party, phases, notes⟩
  rcases rests with ⟨run, rfl, idle⟩
  let resting : Site 2 := ⟨World.ahead superstep, phases, notes⟩
  let drained := resting.leave 6 { resting.party with phase := .drained 6 (.msg 0) } []
  let ready := drained.leave 6 ((drained.enter 6).readCounts 6 (.msg 0)) []
  have drains : Step resting (.drain 6 (.msg 0)) drained := ⟨idle, Int.lt_irrefl 0, rfl⟩
  have reads : Step drained (.readCounts 6) ready := ⟨.msg 0, phases_leave .., rfl⟩
  have requests : Step ready (.request 6) _ := ⟨false, 0, phases_leave .., rfl⟩
  have run := ((run.tail trivial drains).tail trivial reads).tail trivial requests
  exact ⟨_, run, rfl, phases_leave ..⟩

end Site

end IBVerbs

end Talpf
