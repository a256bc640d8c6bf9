import Talpf.IBVerbs.Collectives
import Talpf.IBVerbs.Expectations
import Talpf.IBVerbs.Ranges

/-!
# Rounds of a team

Processes that call sync together take their turns in rounds, and get their
requests accepted together.  In bounded runs the numbers of operations and of
messages stay in the range of their counters; a round of syncs only makes them
smaller.
-/

namespace Talpf

namespace IBVerbs

variable {n : ℕ} {attrs : ℕ → SyncAttr}

/-- A turn that posts nothing and is told nothing -/
structure Member.Eases (member next : Member n) : Prop where
  numMsgs : next.party.verbs.numMsgs ≤ member.party.verbs.numMsgs
  recvCounts : ∀ entry, next.party.verbs.recvCounts entry ≤ member.party.verbs.recvCounts entry
  log : next.party.log = member.party.log

theorem Member.Eases.refl (member : Member n) : member.Eases member :=
  ⟨Int.le_refl _, fun _ => Int.le_refl _, rfl⟩

theorem Member.Eases.congr {member other next : Member n} (eases : member.Eases next)
    (same : other.party = member.party) : other.Eases next :=
  ⟨same ▸ eases.numMsgs, same ▸ eases.recvCounts, same ▸ eases.log⟩

namespace Team

variable {team after : Team n} {devices : Fin n → Device n}

/-- A process takes a turn. -/
theorem Reachable.turn (run : Reachable attrs devices team) {p : Fin n} {member : Member n}
    (turn : (team p).Turn attrs (fun q => (team q).issued) p member) :
    Reachable attrs devices (Function.update team p member) :=
  run.tail trivial ⟨member, turn, rfl⟩

/-- The same process takes another turn. -/
theorem Reachable.again {p : Fin n} {member next : Member n}
    (run : Reachable attrs devices (Function.update team p member))
    (turn : member.Turn attrs (fun q => (Function.update team p member q).issued) p next) :
    Reachable attrs devices (Function.update team p next) := by
  have own : Function.update team p member p = member := Function.update_self _ _ _
  have twice : Function.update (Function.update team p member) p next =
      Function.update team p next := Function.update_idem _ _ _
  rw [← twice]
  apply run.turn
  rw [own]
  exact turn

/-- What is not polled, what has arrived and is not counted, and what is sent to a process between
two readings of the counts are fewer than 2^31. -/
def Bounded (team : Team n) : Prop :=
  ∀ p, (team p).party.verbs.numMsgs < 2 ^ 31 ∧
    (∀ entry, (team p).party.verbs.recvCounts entry < 2 ^ 31) ∧
    ∀ k, ∑ q, (team q).party.sent p k < 2 ^ 31

theorem bounded_initial (devices : Fin n → Device n) : (initial devices).Bounded := by
  intro p
  refine ⟨Int.pow_pos (by decide), fun _ => Int.pow_pos (by decide), fun k => ?_⟩
  have nothing : ∀ q, ((initial devices) q).party.sent p k = 0 := fun _ => rfl
  simp only [nothing, Finset.sum_const_zero]
  exact Nat.two_pow_pos 31

/-- No counter passes the number of operations. -/
theorem bounded_of_logs (numMsgs : ∀ p, (team p).party.verbs.numMsgs < 2 ^ 31)
    (recvCounts : ∀ p entry, (team p).party.verbs.recvCounts entry < 2 ^ 31)
    (few : ∑ q, (team q).party.log.card < 2 ^ 31) : team.Bounded := by
  intro p
  refine ⟨numMsgs p, recvCounts p, fun k => ?_⟩
  exact (Finset.sum_le_sum fun q _ => Multiset.countP_le_card _ _).trans_lt few

theorem Bounded.sent (bounded : team.Bounded) (p q : Fin n) (k : ℕ) :
    (team q).party.sent p k < 2 ^ 31 :=
  Nat.lt_of_le_of_lt (Finset.single_le_sum (fun r _ => Nat.zero_le ((team r).party.sent p k))
    (Finset.mem_univ q)) ((bounded p).2.2 k)

/-- A process that posts nothing does not change what is sent. -/
theorem sum_sent_congr (same : ∀ q, (after q).party.log = (team q).party.log) (p : Fin n) (k : ℕ) :
    ∑ q, (after q).party.sent p k = ∑ q, (team q).party.sent p k := by
  apply Finset.sum_congr rfl
  intro q _
  rw [Party.sent, same q, ← Party.sent]

theorem Bounded.update (bounded : team.Bounded) {p : Fin n} {member : Member n}
    (numMsgs : member.party.verbs.numMsgs < 2 ^ 31)
    (recvCounts : ∀ entry, member.party.verbs.recvCounts entry < 2 ^ 31)
    (log : member.party.log = (team p).party.log) : Bounded (Function.update team p member) := by
  have same : ∀ q, (Function.update team p member q).party.log = (team q).party.log := by
    intro q
    rw [Function.update_apply]
    split
    next own => rw [own, log]
    next => rfl
  intro q
  refine ⟨?_, ?_, fun k => sum_sent_congr same q k ▸ (bounded q).2.2 k⟩
  · rw [Function.update_apply]
    split
    next => exact numMsgs
    next => exact (bounded q).1
  · rw [Function.update_apply]
    split
    next => exact recvCounts
    next => exact (bounded q).2.1

theorem Bounded.ease (bounded : team.Bounded) (eases : ∀ p, (team p).Eases (after p)) :
    after.Bounded := by
  intro p
  rcases bounded p with ⟨numMsgs, recvCounts, sent⟩
  exact ⟨(eases p).numMsgs.trans_lt numMsgs,
    fun entry => ((eases p).recvCounts entry).trans_lt (recvCounts entry),
    fun k => sum_sent_congr (fun q => (eases q).log) p k ▸ sent k⟩

/-- The runs whose states are bounded -/
abbrev BoundedRun (attrs : ℕ → SyncAttr) (devices : Fin n → Device n) : Team n → Prop :=
  Transition.Reachable (fun before p after => Step attrs before p after ∧ after.Bounded)
    (fun _ _ => True) (initial devices)

theorem BoundedRun.reachable (run : BoundedRun attrs devices team) :
    Reachable attrs devices team := by
  apply run.invariant .refl
  intro before _ after reached _ taken
  exact reached.tail trivial taken.1

theorem BoundedRun.bounded (run : BoundedRun attrs devices team) : team.Bounded := by
  apply run.invariant (bounded_initial devices)
  intro _ _ _ _ _ taken
  exact taken.2

theorem BoundedRun.next (run : BoundedRun attrs devices team) {p : Fin n} {member : Member n}
    (turn : (team p).Turn attrs (fun q => (team q).issued) p member)
    (bounded : Bounded (Function.update team p member)) :
    BoundedRun attrs devices (Function.update team p member) :=
  run.tail trivial ⟨⟨member, turn, rfl⟩, bounded⟩

theorem BoundedRun.ease (run : BoundedRun attrs devices team) {p : Fin n} {member : Member n}
    (turn : (team p).Turn attrs (fun q => (team q).issued) p member)
    (eases : (team p).Eases member) : BoundedRun attrs devices (Function.update team p member) := by
  rcases run.bounded p with ⟨numMsgs, recvCounts, _⟩
  exact run.next turn (run.bounded.update (eases.numMsgs.trans_lt numMsgs)
    (fun entry => (eases.recvCounts entry).trans_lt (recvCounts entry)) eases.log)

/-- A process takes another turn. -/
theorem BoundedRun.again {p : Fin n} {member next : Member n}
    (run : BoundedRun attrs devices (Function.update team p member))
    (turn : member.Turn attrs (fun q => (Function.update team p member q).issued) p next)
    (eases : member.Eases next) : BoundedRun attrs devices (Function.update team p next) := by
  have own : Function.update team p member p = member := Function.update_self _ _ _
  have twice : Function.update (Function.update team p member) p next =
      Function.update team p next := Function.update_idem _ _ _
  rw [← twice]
  apply run.ease
  · rw [own]
    exact turn
  · rw [own]
    exact eases

/-- Notifications arrive where there is room for them. -/
theorem BoundedRun.arrives (run : BoundedRun attrs devices team) {p : Fin n}
    (wcs : List (Posted n))
    (room : ∀ entry, (team p).party.verbs.recvCounts entry + wcs.length < 2 ^ 31) :
    BoundedRun attrs devices (Function.update team p { team p with
      party := { (team p).party with
        verbs := (team p).party.verbs.doRemoteProgress (wcs.map Posted.immData) } }) := by
  apply run.next (.background (.remoteProgress wcs))
  apply run.bounded.update
  · rw [Party.doRemoteProgress_eq]
    exact (run.bounded p).1
  · intro entry
    show ((team p).party.verbs.doRemoteProgress _).recvCounts entry < 2 ^ 31
    rw [recvCounts_batch]
    have atMost : (wcs.map Posted.immData).countP (fun tag => recvIndex tag = entry) ≤ _ :=
      List.countP_le_length
    rw [List.length_map] at atMost
    have fits := room entry
    omega
  · rfl

/-- Each process takes a turn. -/
theorem BoundedRun.each (run : BoundedRun attrs devices team) {next : Team n}
    (eases : ∀ p, (team p).Eases (next p))
    (turn : ∀ p (mixed : Team n), (∀ q, mixed q = team q ∨ mixed q = next q) →
      (team p).Turn attrs (fun q => (mixed q).issued) p (next p)) :
    BoundedRun attrs devices next := by
  let stage : List (Fin n) → Team n := fun done q => if q ∈ done then next q else team q
  have all : stage (List.finRange n) = next := by
    funext q
    exact if_pos (List.mem_finRange q)
  rw [← all]
  refine Transition.Reachable.each stage ?_ (List.nodup_finRange n) fun done p fresh => ?_
  · have none : stage [] = team := funext fun q => if_neg List.not_mem_nil
    rw [none]
    exact run
  · have mixed : ∀ q, stage done q = team q ∨ stage done q = next q := by
      intro q
      by_cases already : q ∈ done
      · exact Or.inr (if_pos already)
      · exact Or.inl (if_neg already)
    have own : stage done p = team p := if_neg fresh
    have extended : stage (p :: done) = Function.update (stage done) p (next p) := by
      funext q
      rw [Function.update_apply]
      by_cases here : q = p
      · simp [stage, here]
      · simp [stage, here]
    have bounded : (stage (p :: done)).Bounded := by
      apply run.bounded.ease
      intro q
      show (team q).Eases (if q ∈ p :: done then next q else team q)
      split
      next => exact eases q
      next => exact .refl _
    have turns := turn p (stage done) mixed
    rw [← own] at turns
    rw [extended] at bounded ⊢
    exact .tail .refl trivial ⟨⟨next p, turns, rfl⟩, bounded⟩

/-- What all processes have issued at the same place returns. -/
theorem returns_issued {issued : Fin n → List (Collective n)} {ops : Fin n → Collective n}
    {length : ℕ} (level : ∀ q, (issued q).length = length) (p : Fin n) {result : (ops p).Result}
    (outcome : Collective.outcome ops p (ops p) = result) :
    Returns (fun q => issued q ++ [ops q]) p (ops p) result := by
  refine ⟨issued p, rfl, fun q => ?_, fun found places _ => ?_⟩
  · rw [level p, ← level q, List.length_append, List.length_singleton]
    exact Nat.lt_succ_self _
  · have same : found = ops := by
      funext q
      have here := places q
      rw [level p, ← level q, List.getElem?_concat_length, Option.some.injEq] at here
      exact here.symm
    rw [same, outcome]

theorem outcome_sum (counts : Fin n → Int) (p : Fin n) :
    Collective.outcome (fun q => .allreduceSum (counts q)) p (.allreduceSum (counts p)) =
      ∑ q, counts q := rfl

/-- All processes carry out the reductions that are left. -/
theorem BoundedRun.exists_reduced {counts : Fin n → Fin n → Int} {todo : List (Fin n)}
    {known : Fin n → Int} {length : ℕ} (run : BoundedRun attrs devices team)
    (reducing : ∀ p, (team p).call = .reducing (exchangeCounts p (counts p) todo (known p)))
    (level : ∀ p, (team p).issued.length = length) :
    ∃ after : Team n, BoundedRun attrs devices after ∧
      (∃ length, ∀ p, (after p).issued.length = length) ∧
      ∀ p, (after p).party = (team p).party ∧ (after p).call =
        .reducing (.done (if p ∈ todo then ∑ q, counts q p else known p)) := by
  induction todo generalizing team known length with
  | nil => exact ⟨team, run, ⟨length, level⟩, fun p => ⟨rfl, reducing p⟩⟩
  | cons i todo ih =>
      let ops : Fin n → Collective n := fun p => .allreduceSum (counts p i)
      let asked : Team n := fun p => { team p with
        call := .blocked (.allreduceSum (counts p i)) fun (sum : Int) =>
          exchangeCounts p (counts p) todo (if i = p then sum else known p)
        issued := (team p).issued ++ [ops p] }
      let told : Team n := fun p => { asked p with
        call := .reducing
          (exchangeCounts p (counts p) todo (if i = p then ∑ q, counts q i else known p)) }
      have asks : BoundedRun attrs devices asked :=
        run.each (fun p => ⟨Int.le_refl _, fun _ => Int.le_refl _, rfl⟩)
          fun p _ _ => .reduce (reducing p)
      have tells : BoundedRun attrs devices told := by
        refine asks.each (fun p => ⟨Int.le_refl _, fun _ => Int.le_refl _, rfl⟩)
          fun p mixed among => ?_
        have issued : (fun q => (mixed q).issued) = fun q => (team q).issued ++ [ops q] := by
          funext q
          rcases among q with same | same
          all_goals rw [same]
        have returns := returns_issued level p (outcome_sum (fun q => counts q i) p)
        rw [← issued] at returns
        exact @Member.Turn.reduced _ _ _ p (asked p) _ _ rfl _ returns
      have longer : ∀ p, (told p).issued.length = length + 1 := by
        intro p
        show ((team p).issued ++ [ops p]).length = _
        rw [List.length_append, level p, List.length_singleton]
      rcases ih tells (fun _ => rfl) longer with ⟨after, reached, level, party⟩
      refine ⟨after, reached, level, fun p => ⟨(party p).1, ?_⟩⟩
      rw [(party p).2]
      by_cases later : p ∈ todo
      · rw [if_pos later, if_pos (List.mem_cons_of_mem i later)]
      · rw [if_neg later]
        by_cases own : i = p
        · rw [if_pos own, own, if_pos List.mem_cons_self]
        · rw [if_neg own, if_neg]
          exact fun member => (List.mem_cons.mp member).elim (fun same => own same.symm) later

/-- Processes that have begun a sync exchange their counts and get their requests accepted. -/
theorem BoundedRun.exists_asked {task : Fin n → Task} {attr : SyncAttr} {length : ℕ}
    (run : BoundedRun attrs devices team)
    (drained : ∀ p, (team p).party.phase = .drained (task p) attr)
    (counting : ∀ p, (team p).party.Counting attr)
    (inactive : ∀ p, (team p).party.verbs.syncRequest.isActive = false)
    (level : ∀ p, (team p).issued.length = length) :
    ∃ after : Team n, BoundedRun attrs devices after ∧
      ∀ p, (team p).party.Asks attr (after p).party ∧ (after p).call = .none ∧
        (after p).party.verbs.recvCounts = (team p).party.verbs.recvCounts ∧
        (after p).party.verbs.syncRequest.remoteMsgs =
          ∑ q, (team q).party.verbs.numMsgsSync p ∧
        (after p).party.verbs.syncCachedValue =
          ∑ q, (team q).party.verbs.numMsgsSync p := by
  let counts : Fin n → Fin n → Int := fun p => (team p).party.verbs.numMsgsSync
  let read : Team n := fun p => { team p with
    party := (team p).party.readCounts (task p) attr
    call := Member.reductions p ((team p).party.readCounts (task p) attr) }
  have counted := fun p => (team p).party.counted_readCounts (task p) attr
  have reads : BoundedRun attrs devices read := by
    refine run.each (fun p => ?_) fun p _ _ => .readCounts (drained p)
    exact ⟨Int.le_of_eq (counted p).keeps.numMsgs,
      fun entry => Int.le_of_eq (congrFun (Party.frame_readCounts _ _ _).1 entry),
      (counted p).keeps.log⟩
  have reducing : ∀ p, (read p).call =
      .reducing (exchangeCounts p (counts p) (List.finRange n) 0) := by
    intro p
    show Member.reductions p ((team p).party.readCounts (task p) attr) = _
    rw [Member.reductions, ((counted p).counted (counting p)).1]
  rcases reads.exists_reduced reducing level with ⟨reduced, reduces, _, party⟩
  let told : Fin n → Int := fun p => ∑ q, counts q p
  let exchanged : Team n := fun p => { reduced p with
    party := (read p).party.exchanged (task p) attr (told p)
    call := .none }
  have exchanges : BoundedRun attrs devices exchanged := by
    refine reduces.each (fun p => ?_) fun p mixed _ => ?_
    · have eases : (read p).Eases (exchanged p) := ⟨Int.le_refl _, fun _ => Int.le_refl _, rfl⟩
      exact eases.congr (party p).1
    · have phase : (reduced p).party.phase = .counted (task p) attr (counts p) := by
        rw [(party p).1]
        exact ((counted p).counted (counting p)).1
      have done : (reduced p).call = .reducing (.done (told p)) := by
        rw [(party p).2, if_pos (List.mem_finRange p)]
      have turn : (reduced p).Turn attrs (fun q => (mixed q).issued) p _ := .exchanged phase done
      rw [(party p).1] at turn
      exact turn
  let asked : Team n := fun p => { exchanged p with
    party := (exchanged p).party.requested (task p) attr.barrier (told p) }
  have asks : BoundedRun attrs devices asked := by
    refine exchanges.each (fun p => ⟨Int.le_refl _, fun _ => Int.le_refl _, rfl⟩) fun p _ _ => ?_
    have free : (exchanged p).party.verbs.syncRequest.isActive = false :=
      (counted p).isActive.trans (inactive p)
    exact .request rfl (Party.request_free (task p) attr.barrier (told p) free)
  refine ⟨asked, asks, fun p => ⟨⟨?_, rfl, rfl, rfl, ?_⟩, rfl, ?_, rfl, rfl⟩⟩
  · exact (counted p).keeps.trans ⟨rfl, rfl, rfl, rfl, rfl, rfl, rfl⟩
  · exact (counted p).syncCached (counting p) (told p)
  · exact (Party.frame_readCounts _ _ _).1

/-- The next look completes a request of the first superstep that has its messages. -/
theorem BoundedRun.exists_released {p : Fin n} {member : Member n}
    (run : BoundedRun attrs devices (Function.update team p member))
    (active : member.party.verbs.syncRequest.isActive = true)
    (without : member.party.verbs.syncRequest.withBarrier = false)
    (start : member.party.verbs.syncCounter = BitVec.ofNat 32 0)
    (positive : 0 ≤ member.party.verbs.syncRequest.remoteMsgs)
    (enough : member.party.verbs.syncRequest.remoteMsgs ≤ member.party.verbs.recvCounts 0) :
    ∃ next : Member n, BoundedRun attrs devices (Function.update team p next) ∧
      next.call = member.call ∧ next.party.phase = member.party.phase ∧
      next.party.verbs = (member.party.verbs.takeRecvs 0).releaseRequest ∧
      next.party.superstep = member.party.superstep + 1 := by
  have released :=
    World.processSyncRequest_released false without (World.syncIndex_start start) enough
  have processed : member.party.processSyncRequest false = some { member.party with
      verbs := (member.party.verbs.takeRecvs 0).releaseRequest
      events := member.party.verbs.syncRequest.task.elim member.party.events
        (eventsDecrease member.party.events)
      superstep := member.party.superstep + 1 } := by
    rw [Party.processSyncRequest, released]
  refine ⟨_, run.again (.look active (fun yes => absurd yes Bool.false_ne_true) processed) ?_, rfl,
    rfl, rfl, rfl⟩
  refine ⟨Int.le_refl _, fun entry => ?_, rfl⟩
  show Function.update member.party.verbs.recvCounts 0
    (member.party.verbs.recvCounts 0 - member.party.verbs.syncRequest.remoteMsgs) entry ≤ _
  rw [Function.update_apply]
  split
  next own =>
    rw [own]
    exact Int.sub_le_self _ positive
  next => exact Int.le_refl _

end Team

end IBVerbs

end Talpf
