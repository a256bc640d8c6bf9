import Talpf.IBVerbs.Collectives

/-!
# Schedules of collectives

A sequence of modes and barriers fixes which collectives a process issues, and
which syncs exchange the counts.  `Member.InTurn` says where in this schedule a
process is and what it remembers of the exchanges, and every turn of the process
keeps it there, if the reductions of the counts return the sums of their sync.
-/

namespace Talpf

namespace IBVerbs

variable {n : ℕ} {attrs : ℕ → SyncAttr}

section Schedule

variable {sent other : Fin n → ℕ → ℕ} {k l : ℕ}

theorem countOps_congr (same : ∀ i, sent i k = other i k) (peers : List (Fin n)) :
    countOps sent k peers = countOps other k peers := by
  apply List.map_congr_left
  intro i _
  rw [same i]

theorem requestOps_congr (same : ∀ i, sent i k = other i k) :
    requestOps attrs sent k = requestOps attrs other k := by
  rw [requestOps, requestOps, countOps_congr same]

/-- The collectives of the first syncs are settled by what was sent before them. -/
theorem opsBefore_congr (same : ∀ i l, l < k → sent i l = other i l) :
    opsBefore attrs sent k = opsBefore attrs other k := by
  induction k with
  | zero => rfl
  | succ k ih =>
      have earlier := ih fun i l before => same i l (Nat.lt_succ_of_lt before)
      rw [opsBefore, opsBefore, earlier, syncOps, syncOps,
        requestOps_congr fun i => same i k (Nat.lt_succ_self k)]

theorem kinds_countOps (peers : List (Fin n)) :
    (countOps sent k peers).map Collective.kind = peers.map fun _ => .allreduceSum := by
  rw [countOps, List.map_map]
  rfl

/-- Whatever is sent, the collectives are of the same kinds. -/
theorem kinds_opsBefore (k : ℕ) : (opsBefore attrs sent k).map Collective.kind =
    (opsBefore attrs other k).map Collective.kind := by
  induction k with
  | zero => rfl
  | succ k ih =>
      simp only [opsBefore, syncOps, requestOps, List.map_append, ih]
      split
      · rw [kinds_countOps, kinds_countOps]
      · rfl

theorem opsBefore_leads (within : k ≤ l) : opsBefore attrs sent k <+: opsBefore attrs sent l := by
  induction l, within using Nat.le_induction with
  | base => exact List.prefix_refl _
  | succ l _ ih => exact ih.trans (List.prefix_append _ _)

theorem requestOps_leads (k : ℕ) :
    opsBefore attrs sent k ++ requestOps attrs sent k <+: opsBefore attrs sent (k + 1) :=
  (List.prefix_append_right_inj _).mpr (List.prefix_append _ _)

theorem voteOps_leads (k : ℕ) :
    opsBefore attrs sent k ++ voteOps attrs n k <+: opsBefore attrs sent (k + 1) :=
  ((List.prefix_append_right_inj _).mpr (List.prefix_append _ _)).trans (requestOps_leads k)

/-- The collectives until the reductions for the first processes -/
theorem countOps_leads (exchanges : Exchanges attrs k) {done todo : List (Fin n)}
    (peers : List.finRange n = done ++ todo) :
    voteOps attrs n k ++ countOps sent k done <+: requestOps attrs sent k := by
  rw [requestOps, if_pos exchanges, peers, countOps, countOps, List.map_append]
  exact (List.prefix_append_right_inj _).mpr (List.prefix_append _ _)

/-- A later sync comes after all collectives of an earlier one. -/
theorem voteOps_prefix_of_le (within : k ≤ l) :
    opsBefore attrs sent k ++ voteOps attrs n k <+:
      opsBefore attrs sent l ++ voteOps attrs n l := by
  rcases Nat.eq_or_lt_of_le within with rfl | before
  · exact List.prefix_refl _
  · exact ((voteOps_leads k).trans (opsBefore_leads before)).trans (List.prefix_append _ _)

/-- A later sync comes after the reductions of an earlier one. -/
theorem requestOps_prefix_of_le (within : k ≤ l) :
    opsBefore attrs sent k ++ requestOps attrs sent k <+:
      opsBefore attrs sent l ++ requestOps attrs sent l := by
  rcases Nat.eq_or_lt_of_le within with rfl | before
  · exact List.prefix_refl _
  · exact ((requestOps_leads k).trans (opsBefore_leads before)).trans (List.prefix_append _ _)

theorem requestOps_silent (silent : ¬Exchanges attrs k) :
    requestOps attrs sent k = voteOps attrs n k := by
  rw [requestOps, if_neg silent, List.append_nil]

/-- What is cached comes from the last exchange, which was that of a CACHED sync. -/
theorem lastExchange_spec (cached : cachedBefore attrs k = true) :
    lastExchange attrs k < k ∧ (attrs (lastExchange attrs k)).mode = .cached ∧
      Exchanges attrs (lastExchange attrs k) ∧
      ∀ l, lastExchange attrs k < l → l < k → ¬Exchanges attrs l := by
  induction k with
  | zero => cases cached
  | succ k ih =>
      rw [cachedBefore] at cached
      by_cases exchanges : Exchanges attrs k
      · have isCached : (attrs k).mode = .cached := by
          rcases exchanges with isDefault | both
          · rw [isDefault] at cached
            cases cached
          · exact both.1
        rw [lastExchange, if_pos exchanges]
        exact ⟨Nat.lt_succ_self k, isCached, exchanges, fun l after before => by omega⟩
      · have before : cachedBefore attrs k = true := by
          cases mode : (attrs k).mode with
          | default => exact absurd (Or.inl mode) exchanges
          | cached =>
              by_contra fresh
              exact exchanges (Or.inr ⟨mode, Bool.not_eq_true _ ▸ fresh⟩)
          | msg =>
              rw [mode] at cached
              exact cached
          | unknown =>
              rw [mode] at cached
              exact cached
        rcases ih before with ⟨earlier, isCached, itsExchange, silent⟩
        rw [lastExchange, if_neg exchanges]
        refine ⟨Nat.lt_succ_of_lt earlier, isCached, itsExchange, ?_⟩
        intro l after within
        rcases Nat.lt_succ_iff_lt_or_eq.mp within with inside | rfl
        · exact silent l after inside
        · exact exchanges

end Schedule

/-- How far a process has come with the collectives of a sync. -/
inductive Place (n : ℕ) where
  | between
  | voted
  /-- The reductions for these processes are issued. -/
  | counting (peers : List (Fin n))
  | asking
  | inBarrier

/-- The collectives of a sync up to there -/
def Place.ops (attrs : ℕ → SyncAttr) (sent : Fin n → ℕ → ℕ) (k : ℕ) : Place n → List (Collective n)
  | .between => []
  | .voted => voteOps attrs n k
  | .counting peers => voteOps attrs n k ++ countOps sent k peers
  | .asking => requestOps attrs sent k
  | .inBarrier => syncOps attrs sent k

theorem Place.ops_congr {sent other : Fin n → ℕ → ℕ} {k : ℕ} (same : ∀ i, sent i k = other i k)
    (place : Place n) : place.ops attrs sent k = place.ops attrs other k := by
  cases place with
  | between => rfl
  | voted => rfl
  | counting peers => rw [ops, ops, countOps_congr same]
  | asking => exact requestOps_congr same
  | inBarrier => rw [ops, ops, syncOps, syncOps, requestOps_congr same]

namespace Member

variable {total : ℕ → Int → Prop} {p : Fin n} {member after : Member n} {k : ℕ} {place : Place n}

/-- A process that exchanges the counts of sync `k` and has the results for the first processes -/
structure Counting (attrs : ℕ → SyncAttr) (total : ℕ → Int → Prop) (p : Fin n)
    (member : Member n) (k : ℕ) (attr : SyncAttr) (done todo : List (Fin n)) (remoteMsgs : Int) :
    Prop where
  epoch : member.party.epoch = k + 1
  alike : Alike attr (attrs k)
  exchanges : Exchanges attrs k
  cached : (attrs k).mode = .cached → member.party.verbs.syncCached = true
  peers : List.finRange n = done ++ todo
  told : p ∈ done → total k remoteMsgs

/-- What a process waits for in sync `k` -/
def Expects (attrs : ℕ → SyncAttr) (total : ℕ → Int → Prop) (k : ℕ) (remoteMsgs : Int) : Prop :=
  (attrs k).mode = .cached → total (lastExchange attrs (k + 1)) remoteMsgs

/-- The sync that a process is in, or comes to next, and how far it has come with it -/
def Location (attrs : ℕ → SyncAttr) (total : ℕ → Int → Prop) (p : Fin n) (member : Member n)
    (k : ℕ) (place : Place n) : Prop :=
  match member.party.phase, member.call with
  | .idle, .none =>
      if member.party.verbs.syncRequest.isActive then
        member.party.epoch = k + 1 ∧
          member.party.verbs.syncRequest.withBarrier = (attrs k).barrier ∧
          if member.party.verbs.syncRequest.secondPhase then place = .inBarrier
          else place = .asking ∧ Expects attrs total k member.party.verbs.syncRequest.remoteMsgs
      else member.party.epoch = k ∧ place = .between
  | .idle, .voting _ attr => member.party.epoch = k ∧ Alike attr (attrs k) ∧
      attr.mode = .default ∧ place = .voted
  | .idle, .voted _ attr => member.party.epoch = k ∧ Alike attr (attrs k) ∧ place = .voted
  | .drained _ attr, .none => member.party.epoch = k ∧ Alike attr (attrs k) ∧ place = .voted
  | .counted _ attr counts, .reducing rest => ∃ done todo remoteMsgs,
      Counting attrs total p member k attr done todo remoteMsgs ∧
        rest = exchangeCounts p counts todo remoteMsgs ∧ place = .counting done
  | .counted _ attr counts, .blocked op next => ∃ done i todo remoteMsgs,
      Counting attrs total p member k attr done (i :: todo) remoteMsgs ∧
        SyncCall.blocked op next = .blocked (.allreduceSum (counts i))
          (fun sum => exchangeCounts p counts todo (if i = p then sum else remoteMsgs)) ∧
        place = .counting (done ++ [i])
  | .ready _ barrier remoteMsgs, .none => member.party.epoch = k + 1 ∧
      barrier = (attrs k).barrier ∧ Expects attrs total k remoteMsgs ∧ place = .asking
  | _, _ => False

/-- What a process remembers of the exchanges before sync `k` -/
structure Remembers (attrs : ℕ → SyncAttr) (total : ℕ → Int → Prop) (verbs : IBVerbs n) (k : ℕ) :
    Prop where
  syncCached : verbs.syncCached = cachedBefore attrs k
  value : cachedBefore attrs k = true → total (lastExchange attrs k) verbs.syncCachedValue

/-- A process that follows the schedule -/
structure InTurn (attrs : ℕ → SyncAttr) (total : ℕ → Int → Prop) (p : Fin n)
    (member : Member n) : Prop where
  waits : member.party.verbs.syncRequest.isActive = true →
    member.party.phase = .idle ∧ member.call = .none
  remembers : (∀ task attr counts, member.party.phase ≠ .counted task attr counts) →
    Remembers attrs total member.party.verbs member.party.epoch
  position : ∃ k place, member.Location attrs total p k place ∧
    member.issued = opsBefore attrs member.party.sent k ++ place.ops attrs member.party.sent k

theorem Counting.mono {total' : ℕ → Int → Prop} {attr : SyncAttr} {done todo : List (Fin n)}
    {remoteMsgs : Int} (counting : Counting attrs total p member k attr done todo remoteMsgs)
    (weaker : ∀ k v, total k v → total' k v) :
    Counting attrs total' p member k attr done todo remoteMsgs :=
  ⟨counting.epoch, counting.alike, counting.exchanges, counting.cached, counting.peers,
    fun among => weaker _ _ (counting.told among)⟩

theorem Location.mono {total' : ℕ → Int → Prop} (location : member.Location attrs total p k place)
    (weaker : ∀ k v, total k v → total' k v) : member.Location attrs total' p k place := by
  cases phase : member.party.phase <;> cases call : member.call <;>
    simp only [Location, phase, call] at location ⊢
  case idle.none =>
    split at location
    next active =>
      rw [if_pos active]
      refine ⟨location.1, location.2.1, ?_⟩
      have last := location.2.2
      split at last
      next second =>
        rw [if_pos second]
        exact last
      next first =>
        rw [if_neg first]
        exact ⟨last.1, fun cached => weaker _ _ (last.2 cached)⟩
    next inactive =>
      rw [if_neg inactive]
      exact location
  case idle.voting => exact location
  case idle.voted => exact location
  case drained.none => exact location
  case counted.reducing =>
    rcases location with ⟨done, todo, remoteMsgs, counting, rest, here⟩
    exact ⟨done, todo, remoteMsgs, counting.mono weaker, rest, here⟩
  case counted.blocked =>
    rcases location with ⟨done, i, todo, remoteMsgs, counting, op, here⟩
    exact ⟨done, i, todo, remoteMsgs, counting.mono weaker, op, here⟩
  case ready.none =>
    exact ⟨location.1, location.2.1, fun cached => weaker _ _ (location.2.2.1 cached),
      location.2.2.2⟩

/-- Before the counts of a sync are read only its vote is issued, and its barrier comes last. -/
theorem Location.bounds (location : member.Location attrs total p k place) :
    (member.party.epoch = k ∧ (place = .between ∨ place = .voted)) ∨
      (member.party.epoch = k + 1 ∧
        ((member.party.verbs.syncRequest.secondPhase = true ∧ place = .inBarrier) ∨
          ∀ sent, place.ops attrs sent k <+: requestOps attrs sent k)) := by
  cases phase : member.party.phase <;> cases call : member.call <;>
    simp only [Location, phase, call] at location
  case idle.none =>
    split at location
    next =>
      rcases location with ⟨epoch, _, last⟩
      refine Or.inr ⟨epoch, ?_⟩
      split at last
      next second => exact Or.inl ⟨second, last⟩
      next =>
        rw [last.1]
        exact Or.inr fun sent => List.prefix_refl _
    next => exact Or.inl ⟨location.1, Or.inl location.2⟩
  case idle.voting => exact Or.inl ⟨location.1, Or.inr location.2.2.2⟩
  case idle.voted => exact Or.inl ⟨location.1, Or.inr location.2.2⟩
  case drained.none => exact Or.inl ⟨location.1, Or.inr location.2.2⟩
  case counted.reducing =>
    rcases location with ⟨done, todo, remoteMsgs, counting, _, rfl⟩
    refine Or.inr ⟨counting.epoch, Or.inr fun sent => ?_⟩
    exact countOps_leads counting.exchanges counting.peers
  case counted.blocked =>
    rcases location with ⟨done, i, todo, remoteMsgs, counting, _, rfl⟩
    have peers : List.finRange n = (done ++ [i]) ++ todo := by
      rw [counting.peers, List.append_assoc, List.singleton_append]
    exact Or.inr ⟨counting.epoch, Or.inr fun sent => countOps_leads counting.exchanges peers⟩
  case ready.none =>
    rcases location with ⟨epoch, _, _, rfl⟩
    exact Or.inr ⟨epoch, Or.inr fun sent => List.prefix_refl _⟩

/-- What a process has issued is among the collectives of the schedule. -/
theorem InTurn.issued_leads (inTurn : member.InTurn attrs total p) : member.issued <+:
    opsBefore attrs member.party.sent member.party.epoch ++
      voteOps attrs n member.party.epoch := by
  rcases inTurn.position with ⟨k, place, location, issued⟩
  rw [issued]
  rcases location.bounds with ⟨rfl, rfl | rfl⟩ | ⟨epoch, ⟨_, rfl⟩ | within⟩
  · exact (List.prefix_append_right_inj _).mpr List.nil_prefix
  · exact List.prefix_refl _
  · rw [epoch]
    exact List.prefix_append _ _
  · rw [epoch]
    exact (((List.prefix_append_right_inj _).mpr (within _)).trans (requestOps_leads k)).trans
      (List.prefix_append _ _)

theorem InTurn.mono {total' : ℕ → Int → Prop} (inTurn : member.InTurn attrs total p)
    (weaker : ∀ k v, total k v → total' k v) : member.InTurn attrs total' p where
  waits := inTurn.waits
  remembers other :=
    have before := inTurn.remembers other
    ⟨before.syncCached, fun cached => weaker _ _ (before.value cached)⟩
  position := by
    rcases inTurn.position with ⟨k, place, location, issued⟩
    exact ⟨k, place, location.mono weaker, issued⟩

end Member

/-- What a process does beside its sync -/
structure Party.Steady (before after : Party n) : Prop where
  phase : after.phase = before.phase
  syncRequest : after.verbs.syncRequest = before.verbs.syncRequest
  syncCached : after.verbs.syncCached = before.verbs.syncCached
  syncCachedValue : after.verbs.syncCachedValue = before.verbs.syncCachedValue
  epoch : after.epoch = before.epoch
  sent : ∀ i k, k < before.epoch → after.sent i k = before.sent i k

theorem Party.Background.steady {party after : Party n} (moved : party.Background after) :
    party.Steady after := by
  cases moved with
  | post task kind peer =>
      have sent := (Extends.post party task kind peer).sent
      rw [Party.post, OperationKind.post_eq] at sent ⊢
      exact ⟨rfl, rfl, rfl, rfl, rfl, sent⟩
  | complete first => exact ⟨rfl, rfl, rfl, rfl, rfl, fun _ _ _ => rfl⟩
  | localProgress polled => exact ⟨rfl, rfl, rfl, rfl, rfl, fun _ _ _ => rfl⟩
  | remoteProgress wcs =>
      rw [doRemoteProgress_eq]
      exact ⟨rfl, rfl, rfl, rfl, rfl, fun _ _ _ => rfl⟩

namespace Member

variable {total : ℕ → Int → Prop} {p : Fin n} {member after : Member n} {k : ℕ} {place : Place n}

theorem Counting.steady {party : Party n} (steady : member.party.Steady party) {attr : SyncAttr}
    {done todo : List (Fin n)} {remoteMsgs : Int}
    (counting : Counting attrs total p member k attr done todo remoteMsgs) :
    Counting attrs total p { member with party := party } k attr done todo remoteMsgs :=
  ⟨steady.epoch.trans counting.epoch, counting.alike, counting.exchanges,
    fun isCached => steady.syncCached.trans (counting.cached isCached), counting.peers,
    counting.told⟩

theorem Location.steady {party : Party n} (steady : member.party.Steady party)
    (location : member.Location attrs total p k place) :
    ({ member with party := party } : Member n).Location attrs total p k place := by
  cases phase : member.party.phase <;> cases call : member.call <;>
    simp only [Location, steady.phase, steady.syncRequest, steady.epoch, phase, call]
      at location ⊢
  case counted.reducing =>
    rcases location with ⟨done, todo, remoteMsgs, counting, rest, here⟩
    exact ⟨done, todo, remoteMsgs, call ▸ counting.steady steady, rest, here⟩
  case counted.blocked =>
    rcases location with ⟨done, i, todo, remoteMsgs, counting, op, here⟩
    exact ⟨done, i, todo, remoteMsgs, call ▸ counting.steady steady, op, here⟩
  all_goals exact location

/-- Posts, completions and notifications do not disturb the schedule. -/
theorem InTurn.steady {party : Party n} (inTurn : member.InTurn attrs total p)
    (steady : member.party.Steady party) :
    ({ member with party := party } : Member n).InTurn attrs total p where
  waits := by
    rw [steady.syncRequest, steady.phase]
    exact inTurn.waits
  remembers := by
    intro other
    have before := inTurn.remembers (steady.phase ▸ other)
    show Remembers attrs total party.verbs party.epoch
    rw [steady.epoch]
    exact ⟨steady.syncCached.trans before.syncCached,
      fun cached => steady.syncCachedValue ▸ before.value cached⟩
  position := by
    rcases inTurn.position with ⟨k, place, location, issued⟩
    refine ⟨k, place, location.steady steady, issued.trans ?_⟩
    have earlier : opsBefore attrs party.sent k = opsBefore attrs member.party.sent k := by
      apply opsBefore_congr
      intro i l before
      apply steady.sent
      rcases location.bounds with ⟨epoch, _⟩ | ⟨epoch, _⟩ <;> omega
    rcases location.bounds with ⟨epoch, rfl | rfl⟩ | ⟨epoch, _⟩
    · rw [earlier, Place.ops, Place.ops]
    · rw [earlier, Place.ops, Place.ops]
    · rw [earlier, place.ops_congr fun i => steady.sent i k (by omega)]

theorem InTurn.vote (inTurn : member.InTurn attrs total p) (free : member.Free) (task : Task)
    {attr : SyncAttr} (alike : Alike attr (attrs member.party.epoch))
    (isDefault : attr.mode = .default) :
    ({ member with
      call := .voting task attr
      issued := member.issued ++ [.iallreduceSum (0, 0)] } : Member n).InTurn attrs total p where
  waits active := absurd (active.symm.trans free.inactive) (by decide)
  remembers := inTurn.remembers
  position := by
    rcases inTurn.position with ⟨k, place, location, issued⟩
    simp only [Location, free.idle, free.call, free.inactive, Bool.false_eq_true, if_false]
      at location
    rcases location with ⟨rfl, rfl⟩
    refine ⟨member.party.epoch, .voted, ?_, ?_⟩
    · simp only [Location, free.idle]
      exact ⟨trivial, alike, isDefault, trivial⟩
    · rw [issued, Place.ops, List.append_nil, Place.ops, voteOps, if_pos (alike.1 ▸ isDefault)]

theorem InTurn.voted (inTurn : member.InTurn attrs total p) {task : Task} {attr : SyncAttr}
    (voting : member.call = .voting task attr) :
    ({ member with call := .voted task attr } : Member n).InTurn attrs total p where
  waits active := by
    have none := (inTurn.waits active).2
    rw [voting] at none
    cases none
  remembers := inTurn.remembers
  position := by
    rcases inTurn.position with ⟨k, place, location, issued⟩
    refine ⟨k, place, ?_, issued⟩
    cases phase : member.party.phase <;> simp only [Location, phase, voting] at location ⊢
    exact ⟨location.1, location.2.1, location.2.2.2⟩

/-- The process waits for local completion in no phase but the first. -/
theorem InTurn.idle_of_voted (inTurn : member.InTurn attrs total p) {task : Task}
    {attr : SyncAttr} (voted : member.call = .voted task attr) : member.party.phase = .idle := by
  rcases inTurn.position with ⟨k, place, location, _⟩
  cases phase : member.party.phase with
  | idle => rfl
  | _ => simp only [Location, phase, voted] at location

theorem InTurn.drain (inTurn : member.InTurn attrs total p) {task : Task} {attr : SyncAttr}
    (called : member.call = .voted task attr ∨
      (member.Free ∧ Alike attr (attrs member.party.epoch) ∧ attr.mode ≠ .default)) :
    ({ member with
      party := { member.party with phase := .drained task attr }
      call := .none } : Member n).InTurn attrs total p where
  waits active := by
    rcases called with voted | ⟨free, _⟩
    · have none := (inTurn.waits active).2
      rw [voted] at none
      cases none
    · cases active.symm.trans free.inactive
  remembers _ := by
    apply inTurn.remembers
    intro _ _ _ counted
    rcases called with voted | ⟨free, _⟩
    · cases counted.symm.trans (inTurn.idle_of_voted voted)
    · cases counted.symm.trans free.idle
  position := by
    rcases inTurn.position with ⟨k, place, location, issued⟩
    rcases called with voted | ⟨free, alike, notDefault⟩
    · simp only [Location, inTurn.idle_of_voted voted, voted] at location
      exact ⟨k, place, location, issued⟩
    · simp only [Location, free.idle, free.call, free.inactive, Bool.false_eq_true, if_false]
        at location
      rcases location with ⟨rfl, rfl⟩
      refine ⟨member.party.epoch, .voted, ⟨rfl, alike, rfl⟩, issued.trans ?_⟩
      have isOther : (attrs member.party.epoch).mode ≠ .default := alike.1 ▸ notDefault
      simp only [Place.ops, voteOps, if_neg isOther]
      rfl

/-- The next sync of a schedule remembers what is cached by this one. -/
theorem Remembers.silent {verbs : IBVerbs n} (remembers : Remembers attrs total verbs k)
    (silent : ¬Exchanges attrs k) : Remembers attrs total verbs (k + 1) := by
  have same : cachedBefore attrs (k + 1) = cachedBefore attrs k := by
    rw [cachedBefore]
    cases mode : (attrs k).mode with
    | default => exact absurd (Or.inl mode) silent
    | cached =>
        cases before : cachedBefore attrs k with
        | true => rfl
        | false => exact absurd (Or.inr ⟨mode, before⟩) silent
    | msg => rfl
    | unknown => rfl
  constructor
  · rw [same]
    exact remembers.syncCached
  · rw [same, lastExchange, if_neg silent]
    exact remembers.value

theorem sent_of_log {party other : Party n} (log : party.log = other.log) :
    party.sent = other.sent := by
  funext i k
  rw [Party.sent, Party.sent, log]

theorem Location.none_of_drained (location : member.Location attrs total p k place) {task : Task}
    {attr : SyncAttr} (drained : member.party.phase = .drained task attr) :
    member.call = .none := by
  cases call : member.call with
  | none => rfl
  | _ => simp only [Location, drained, call] at location

theorem Location.none_of_ready (location : member.Location attrs total p k place) {task : Task}
    {barrier : Bool} {remoteMsgs : Int}
    (ready : member.party.phase = .ready task barrier remoteMsgs) : member.call = .none := by
  cases call : member.call with
  | none => rfl
  | _ => simp only [Location, ready, call] at location

/-- A sync that reads the counts and does not exchange them -/
theorem InTurn.skip (inTurn : member.InTurn attrs total p) {task : Task} {attr : SyncAttr}
    (drained : member.party.phase = .drained task attr)
    (silent : ¬Exchanges attrs member.party.epoch) {party : Party n} {remoteMsgs : Int}
    (ready : party.phase = .ready task attr.barrier remoteMsgs)
    (epoch : party.epoch = member.party.epoch + 1) (log : party.log = member.party.log)
    (verbs : party.verbs = member.party.verbs.clearMsgsSync)
    (expects : Expects attrs total member.party.epoch remoteMsgs) :
    ({ member with party := party, call := .none } : Member n).InTurn attrs total p where
  waits := by
    intro active
    rw [verbs] at active
    have idle := (inTurn.waits active).1
    cases idle.symm.trans drained
  remembers _ := by
    have before := inTurn.remembers fun _ _ _ counted => by cases counted.symm.trans drained
    show Remembers attrs total party.verbs party.epoch
    rw [verbs, epoch]
    exact Remembers.silent ⟨before.syncCached, before.value⟩ silent
  position := by
    rcases inTurn.position with ⟨k, place, location, issued⟩
    simp only [Location, drained, location.none_of_drained drained] at location
    rcases location with ⟨rfl, alike, rfl⟩
    refine ⟨member.party.epoch, .asking, ?_, ?_⟩
    · simp only [Location, ready]
      exact ⟨epoch, alike.2, expects, trivial⟩
    · show member.issued = opsBefore attrs party.sent _ ++ requestOps attrs party.sent _
      rw [issued, sent_of_log log, Place.ops, requestOps_silent silent]

/-- A sync that reads the counts to exchange them -/
theorem InTurn.count (inTurn : member.InTurn attrs total p) {task : Task} {attr : SyncAttr}
    (drained : member.party.phase = .drained task attr)
    (exchanges : Exchanges attrs member.party.epoch) {party : Party n} {counts : Fin n → Int}
    (counted : party.phase = .counted task attr counts)
    (epoch : party.epoch = member.party.epoch + 1) (log : party.log = member.party.log)
    (request : party.verbs.syncRequest = member.party.verbs.syncRequest)
    (cached : (attrs member.party.epoch).mode = .cached → party.verbs.syncCached = true) :
    ({ member with party := party, call := reductions p party } : Member n).InTurn
      attrs total p where
  waits := by
    intro active
    rw [request] at active
    have idle := (inTurn.waits active).1
    cases idle.symm.trans drained
  remembers other := absurd counted (other task attr counts)
  position := by
    rcases inTurn.position with ⟨k, place, location, issued⟩
    simp only [Location, drained, location.none_of_drained drained] at location
    rcases location with ⟨rfl, alike, rfl⟩
    refine ⟨member.party.epoch, .counting [], ?_, ?_⟩
    · simp only [Location, reductions, counted]
      exact ⟨[], List.finRange n, 0,
        ⟨epoch, alike, exchanges, cached, rfl, fun among => nomatch among⟩, rfl, rfl⟩
    · show member.issued = opsBefore attrs party.sent _ ++ _
      rw [issued, sent_of_log log, Place.ops, Place.ops, countOps, List.map_nil, List.append_nil]

theorem InTurn.readCounts (inTurn : member.InTurn attrs total p) {task : Task} {attr : SyncAttr}
    (drained : member.party.phase = .drained task attr) :
    ({ member with
      party := member.party.readCounts task attr
      call := reductions p (member.party.readCounts task attr) } : Member n).InTurn
        attrs total p := by
  have alike : attr.mode = (attrs member.party.epoch).mode := by
    rcases inTurn.position with ⟨k, place, location, _⟩
    cases call : member.call <;> simp only [Location, drained, call] at location
    exact location.1 ▸ location.2.1.1
  have before := inTurn.remembers fun _ _ _ counted => by cases counted.symm.trans drained
  have silent : (attrs member.party.epoch).mode ≠ .default →
      (attrs member.party.epoch).mode ≠ .cached → ¬Exchanges attrs member.party.epoch := by
    rintro notDefault notCached (isDefault | ⟨isCached, _⟩)
    · exact notDefault isDefault
    · exact notCached isCached
  rw [Party.readCounts]
  cases mode : attr.mode with
  | default =>
      have isDefault := alike.symm.trans mode
      exact inTurn.count drained (Or.inl isDefault) rfl rfl rfl rfl fun isCached => by
        cases isDefault.symm.trans isCached
  | cached =>
      have isCached := alike.symm.trans mode
      dsimp only
      split
      next already =>
        have cached : cachedBefore attrs member.party.epoch = true :=
          before.syncCached.symm.trans already
        have silent : ¬Exchanges attrs member.party.epoch := by
          rintro (isDefault | ⟨_, fresh⟩)
          · cases isDefault.symm.trans isCached
          · cases cached.symm.trans fresh
        refine inTurn.skip drained silent rfl rfl rfl rfl fun _ => ?_
        rw [lastExchange, if_neg silent]
        exact before.value cached
      next fresh =>
        have fresh : cachedBefore attrs member.party.epoch = false :=
          before.syncCached.symm.trans (Bool.not_eq_true _ ▸ fresh)
        exact inTurn.count drained (Or.inr ⟨isCached, fresh⟩) rfl rfl rfl rfl fun _ => rfl
  | msg =>
      have isMsg := alike.symm.trans mode
      refine inTurn.skip drained (silent ?_ ?_) rfl rfl rfl rfl fun isCached => ?_
      · rw [isMsg]
        decide
      · rw [isMsg]
        decide
      · cases isMsg.symm.trans isCached
  | unknown =>
      have isUnknown := alike.symm.trans mode
      refine inTurn.skip drained (silent ?_ ?_) rfl rfl rfl rfl fun isCached => ?_
      · rw [isUnknown]
        decide
      · rw [isUnknown]
        decide
      · cases isUnknown.symm.trans isCached

theorem InTurn.reduce (inTurn : member.InTurn attrs total p) (tracked : member.party.Tracked)
    {op : Collective n} {next : op.Result → Comm n Int}
    (reducing : member.call = .reducing (.call op next)) :
    ({ member with
      call := .blocked op next
      issued := member.issued ++ [op] } : Member n).InTurn attrs total p where
  waits active := by
    have none := (inTurn.waits active).2
    rw [reducing] at none
    cases none
  remembers := inTurn.remembers
  position := by
    rcases inTurn.position with ⟨k, place, location, issued⟩
    cases phase : member.party.phase <;> simp only [Location, phase, reducing] at location
    rename_i task attr counts
    rcases location with ⟨done, todo, remoteMsgs, counting, calls, rfl⟩
    cases todo with
    | nil => cases calls
    | cons i todo =>
        cases calls
        have sent : counts i = member.party.sent i k := by
          rw [tracked.counted task attr counts phase i, counting.epoch, Nat.add_sub_cancel]
        refine ⟨k, .counting (done ++ [i]), ?_, ?_⟩
        · simp only [Location, phase]
          exact ⟨done, i, todo, remoteMsgs,
            ⟨counting.epoch, counting.alike, counting.exchanges, counting.cached,
              counting.peers, counting.told⟩, rfl, rfl⟩
        · show member.issued ++ [.allreduceSum (counts i)] = _
          rw [issued, sent, Place.ops, Place.ops, countOps, countOps, List.map_append,
            List.append_assoc, List.append_assoc]
          rfl

/-- The next reduction is for this process, so that its result is the number of messages. -/
def Reduces (attrs : ℕ → SyncAttr) (member : Member n) (k : ℕ) (i : Fin n) : Prop :=
  Exchanges attrs k ∧ ∃ done todo, List.finRange n = done ++ i :: todo ∧
    member.issued = opsBefore attrs member.party.sent k ++
      (voteOps attrs n k ++ countOps member.party.sent k done) ++
        [.allreduceSum (member.party.sent i k)]

theorem InTurn.reduced (inTurn : member.InTurn attrs total p)
    {issued : Fin n → List (Collective n)}
    (told : ∀ {k : ℕ} {c sum : Int}, Reduces attrs member k p →
      Returns issued p (.allreduceSum c) sum → total k sum)
    {op : Collective n} {next : op.Result → Comm n Int} (blocked : member.call = .blocked op next)
    {result : op.Result} (returns : Returns issued p op result) :
    ({ member with call := .reducing (next result) } : Member n).InTurn attrs total p where
  waits active := by
    have none := (inTurn.waits active).2
    rw [blocked] at none
    cases none
  remembers := inTurn.remembers
  position := by
    rcases inTurn.position with ⟨k, place, location, itsIssued⟩
    cases phase : member.party.phase <;> simp only [Location, phase, blocked] at location
    rename_i task attr counts
    rcases location with ⟨done, i, todo, remoteMsgs, counting, calls, rfl⟩
    cases calls
    refine ⟨k, .counting (done ++ [i]), ?_, itsIssued⟩
    simp only [Location, phase]
    refine ⟨done ++ [i], todo, _, ⟨counting.epoch, counting.alike, counting.exchanges,
      counting.cached, ?_, ?_⟩, rfl, rfl⟩
    · rw [counting.peers, List.append_assoc, List.singleton_append]
    · intro among
      by_cases own : i = p
      · subst own
        rw [if_pos rfl]
        refine told ⟨counting.exchanges, done, todo, counting.peers, ?_⟩ returns
        rw [itsIssued, Place.ops, countOps, countOps, List.map_append, List.append_assoc,
          List.append_assoc]
        rfl
      · rw [if_neg own]
        rcases List.mem_append.mp among with earlier | last
        · exact counting.told earlier
        · exact absurd (List.mem_singleton.mp last).symm own

/-- A process that has the results of all reductions knows the number of its messages. -/
theorem InTurn.told_of_done (inTurn : member.InTurn attrs total p) {task : Task} {attr : SyncAttr}
    {counts : Fin n → Int} (counted : member.party.phase = .counted task attr counts)
    {remoteMsgs : Int} (finished : member.call = .reducing (.done remoteMsgs)) :
    ∃ k, total k remoteMsgs := by
  rcases inTurn.position with ⟨k, place, location, issued⟩
  simp only [Location, counted, finished] at location
  rcases location with ⟨done, todo, told, counting, calls, rfl⟩
  cases todo with
  | cons i todo => cases calls
  | nil =>
      cases calls
      have peers := counting.peers
      rw [List.append_nil] at peers
      exact ⟨k, counting.told (peers ▸ List.mem_finRange p)⟩

theorem InTurn.exchanged (inTurn : member.InTurn attrs total p) {task : Task} {attr : SyncAttr}
    {counts : Fin n → Int} (counted : member.party.phase = .counted task attr counts)
    {remoteMsgs : Int} (finished : member.call = .reducing (.done remoteMsgs)) :
    ({ member with
      party := member.party.exchanged task attr remoteMsgs
      call := .none } : Member n).InTurn attrs total p := by
  rcases inTurn.position with ⟨k, place, location, issued⟩
  simp only [Location, counted, finished] at location
  rcases location with ⟨done, todo, told, counting, calls, rfl⟩
  cases todo with
  | cons i todo => cases calls
  | nil =>
      cases calls
      have peers := counting.peers
      rw [List.append_nil] at peers
      have sum : total k remoteMsgs := counting.told (peers ▸ List.mem_finRange p)
      have last : lastExchange attrs (k + 1) = k := by rw [lastExchange, if_pos counting.exchanges]
      refine ⟨?_, ?_, k, .asking, ?_, ?_⟩
      · intro active
        have idle := (inTurn.waits active).1
        cases idle.symm.trans counted
      · intro _
        show Remembers attrs total (member.party.verbs.storeCount attr.mode remoteMsgs)
          member.party.epoch
        rw [counting.epoch]
        constructor
        · rw [cachedBefore]
          rcases counting.exchanges with isDefault | ⟨isCached, _⟩
          · rw [isDefault, storeCount, counting.alike.1, if_pos isDefault]
            rfl
          · have notDefault : (attrs k).mode ≠ .default := by
              rw [isCached]
              decide
            rw [isCached, storeCount, counting.alike.1, if_neg notDefault]
            exact counting.cached isCached
        · rw [last]
          exact fun _ => sum
      · exact ⟨counting.epoch, counting.alike.2, fun _ => last.symm ▸ sum, rfl⟩
      · show member.issued = _
        rw [issued, Place.ops, Place.ops, requestOps, if_pos counting.exchanges, peers]
        rfl

theorem InTurn.request (inTurn : member.InTurn attrs total p) (phased : member.party.Phased)
    {task : Task} {barrier : Bool} {remoteMsgs : Int}
    (ready : member.party.phase = .ready task barrier remoteMsgs) {party : Party n}
    (accepted : member.party.request task barrier remoteMsgs = some party) :
    ({ member with party := party } : Member n).InTurn attrs total p := by
  rcases inTurn.position with ⟨k, place, location, issued⟩
  have none := location.none_of_ready ready
  simp only [Location, ready, none] at location
  rcases location with ⟨epoch, sameBarrier, expects, rfl⟩
  have before := inTurn.remembers fun _ _ _ counted => by cases counted.symm.trans ready
  rcases Option.map_eq_some_iff.mp accepted with ⟨verbs, requests, rfl⟩
  rw [requestSync] at requests
  split at requests
  next => cases requests
  next inactive =>
    rw [Option.some.injEq] at requests
    subst requests
    have first : member.party.verbs.syncRequest.secondPhase = false := by
      rw [← Bool.not_eq_true]
      exact fun second => inactive (phased second).1
    refine ⟨fun _ => ⟨rfl, none⟩, fun _ => ⟨before.syncCached, before.value⟩, k, .asking, ?_,
      issued⟩
    simp only [Location, none, first, if_true, Bool.false_eq_true, if_false]
    exact ⟨epoch, sameBarrier, trivial, expects⟩

theorem InTurn.look (inTurn : member.InTurn attrs total p) (phased : member.party.Phased)
    (active : member.party.verbs.syncRequest.isActive = true) {flag : Bool} {party : Party n}
    (processed : member.party.processSyncRequest flag = some party) :
    ({ member with
      party := party
      issued := member.issued ++ barrierOps member.party party } : Member n).InTurn
        attrs total p := by
  rcases inTurn.waits active with ⟨idle, none⟩
  have before := inTurn.remembers fun _ _ _ counted => by cases counted.symm.trans idle
  rcases inTurn.position with ⟨k, place, location, issued⟩
  simp only [Location, idle, none, active, if_true] at location
  rcases location with ⟨epoch, sameBarrier, last⟩
  rw [Party.processSyncRequest] at processed
  rcases look_cases member.party.verbs flag with waits | faults | ⟨⟨_, second⟩, finishes⟩ |
    ⟨entry, first, _, _, ⟨barrier, starts⟩ | ⟨barrier, releases⟩⟩
  · rw [waits, Option.some.injEq] at processed
    subst processed
    have nothing : barrierOps member.party member.party = [] :=
      if_neg fun both => Bool.false_ne_true (both.2.symm.trans both.1)
    rw [nothing, List.append_nil]
    exact inTurn
  · rw [faults] at processed
    cases processed
  · rw [finishes, Option.some.injEq] at processed
    subst processed
    rw [if_pos second] at last
    subst last
    refine ⟨fun active => absurd active Bool.false_ne_true,
      fun _ => ⟨before.syncCached, before.value⟩, k + 1, .between, ?_, ?_⟩
    · simp only [Location, idle, none, IBVerbs.finishRequest, Bool.false_eq_true, if_false]
      exact ⟨epoch, trivial⟩
    · have nothing : barrierOps member.party { member.party with
          verbs := member.party.verbs.finishRequest
          events := member.party.verbs.syncRequest.task.elim member.party.events
            (eventsDecrease member.party.events)
          superstep := member.party.superstep + 1 } = [] :=
        if_neg fun both => Bool.false_ne_true both.1
      show member.issued ++ barrierOps member.party _ = _
      rw [nothing, issued, List.append_nil]
      exact (List.append_nil _).symm
  · rw [starts, Option.some.injEq] at processed
    subst processed
    have isFirst := phased.first first
    rw [isFirst, if_neg Bool.false_ne_true] at last
    rcases last with ⟨rfl, _⟩
    refine ⟨fun _ => ⟨idle, none⟩, fun _ => ⟨before.syncCached, before.value⟩, k, .inBarrier, ?_,
      ?_⟩
    · simp only [Location, idle, none, IBVerbs.takeRecvs, active, if_true]
      exact ⟨epoch, sameBarrier, trivial⟩
    · have one : barrierOps member.party { member.party with
          verbs := { member.party.verbs.takeRecvs entry with
            syncRequest := { (member.party.verbs.takeRecvs entry).syncRequest with
              secondPhase := true } } } = [.ibarrier] :=
        if_pos ⟨rfl, isFirst⟩
      show member.issued ++ barrierOps member.party _ = _
      rw [one, issued, Place.ops, Place.ops, syncOps, ← sameBarrier, barrier, if_pos rfl,
        List.append_assoc]
      rfl
  · rw [releases, Option.some.injEq] at processed
    subst processed
    have isFirst := phased.first first
    rw [isFirst, if_neg Bool.false_ne_true] at last
    rcases last with ⟨rfl, _⟩
    refine ⟨fun active => absurd active Bool.false_ne_true,
      fun _ => ⟨before.syncCached, before.value⟩, k + 1, .between, ?_, ?_⟩
    · simp only [Location, idle, none, IBVerbs.releaseRequest, Bool.false_eq_true, if_false]
      exact ⟨epoch, trivial⟩
    · have nothing : barrierOps member.party { member.party with
          verbs := (member.party.verbs.takeRecvs entry).releaseRequest
          events := member.party.verbs.syncRequest.task.elim member.party.events
            (eventsDecrease member.party.events)
          superstep := member.party.superstep + 1 } = [] := by
        refine if_neg fun both => ?_
        have second : member.party.verbs.syncRequest.secondPhase = true := both.1
        exact Bool.false_ne_true (isFirst.symm.trans second)
      show member.issued ++ barrierOps member.party _ = _
      have silent : syncOps attrs member.party.sent k = requestOps attrs member.party.sent k := by
        rw [syncOps, ← sameBarrier, barrier, if_neg Bool.false_ne_true, List.append_nil]
      rw [nothing, issued, List.append_nil]
      show _ = (opsBefore attrs member.party.sent k ++ syncOps attrs member.party.sent k) ++ []
      rw [silent, List.append_nil]
      rfl

theorem InTurn.turn (inTurn : member.InTurn attrs total p) (tracked : member.party.Tracked)
    (phased : member.party.Phased) {issued : Fin n → List (Collective n)}
    (told : ∀ {k : ℕ} {c sum : Int}, Reduces attrs member k p →
      Returns issued p (.allreduceSum c) sum → total k sum)
    (turn : member.Turn attrs issued p after) : after.InTurn attrs total p := by
  cases turn with
  | background moved => exact inTurn.steady moved.steady
  | vote free task alike isDefault => exact inTurn.vote free task alike isDefault
  | voted voting returns goesOn => exact inTurn.voted voting
  | drain called complete => exact inTurn.drain called
  | readCounts drained => exact inTurn.readCounts drained
  | reduce reducing => exact inTurn.reduce tracked reducing
  | reduced blocked returns => exact inTurn.reduced told blocked returns
  | exchanged counted done => exact inTurn.exchanged counted done
  | request ready accepted => exact inTurn.request phased ready accepted
  | look active test processed => exact inTurn.look phased active processed

theorem Turn.moves (inTurn : member.InTurn attrs total p) {issued : Fin n → List (Collective n)}
    (turn : member.Turn attrs issued p after) :
    ∃ action, member.party.Moves p action after.party := by
  cases turn with
  | background moved =>
      cases moved with
      | post task kind peer => exact ⟨_, .post task kind peer⟩
      | complete first => exact ⟨_, .complete first⟩
      | localProgress polled => exact ⟨_, .localProgress polled⟩
      | remoteProgress wcs => exact ⟨_, .remoteProgress wcs⟩
  | vote => exact ⟨.exchange, .stays _⟩
  | voted => exact ⟨.exchange, .stays _⟩
  | @drain task attr called _ =>
      have idle : member.party.phase = .idle := by
        rcases called with voted | ⟨free, _⟩
        · exact inTurn.idle_of_voted voted
        · exact free.idle
      exact ⟨_, .drain idle task attr⟩
  | readCounts drained => exact ⟨_, .readCounts drained⟩
  | reduce => exact ⟨.exchange, .stays _⟩
  | reduced => exact ⟨.exchange, .stays _⟩
  | exchanged counted _ => exact ⟨_, .exchange counted _⟩
  | request ready accepted => exact ⟨_, .request ready accepted⟩
  | look active _ processed => exact ⟨_, .processSyncRequest active processed⟩

end Member

end IBVerbs

end Talpf
