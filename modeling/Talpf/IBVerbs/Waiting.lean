import Talpf.IBVerbs.MixedModes
import Mathlib.Data.Fintype.Lattice

/-!
# Waiting for collectives

A process issues its next collective only when its last one has returned, and so
the processes of mixed modes are never more than one collective apart.  Those
that have issued the fewest wait for nobody: there is no deadlock.  When a
process has left the barrier of a sync, all processes have counted the messages
of that sync.
-/

namespace Talpf

namespace IBVerbs

variable {n : ℕ} {attrs : ℕ → SyncAttr}

namespace Member

variable {total : ℕ → Int → Prop} {p : Fin n} {member after : Member n}

/-- The collective that a process waits for -/
inductive Awaits (member : Member n) : Collective n → Prop where
  | vote {task : Task} {attr : SyncAttr} (voting : member.call = .voting task attr) :
      Awaits member (.iallreduceSum (0, 0))
  | reduction {op : Collective n} {next : op.Result → Comm n Int}
      (blocked : member.call = .blocked op next) : Awaits member op
  | barrier (active : member.party.verbs.syncRequest.isActive = true)
      (second : member.party.verbs.syncRequest.secondPhase = true) : Awaits member .ibarrier

/-- The sync itself waits for a collective, or the polling task does. -/
def Waiting (member : Member n) : Prop := ∃ op, member.Awaits op

/-- The sync itself waits for no collective. -/
def Unblocked (member : Member n) : Prop :=
  (∀ task attr, member.call ≠ .voting task attr) ∧
    ∀ (op : Collective n) (next : op.Result → Comm n Int), member.call ≠ .blocked op next

theorem Unblocked.of_call {call : SyncCall n} (same : member.call = call)
    (voting : ∀ task attr, call ≠ .voting task attr)
    (blocked : ∀ (op : Collective n) (next : op.Result → Comm n Int), call ≠ .blocked op next) :
    member.Unblocked := by
  subst same
  exact ⟨voting, blocked⟩

theorem waiting_iff (unblocked : member.Unblocked) : member.Waiting ↔
    member.party.verbs.syncRequest.isActive = true ∧
      member.party.verbs.syncRequest.secondPhase = true := by
  constructor
  · rintro ⟨op, awaits⟩
    cases awaits with
    | vote voting => exact absurd voting (unblocked.1 _ _)
    | reduction blocked => exact absurd blocked (unblocked.2 _ _)
    | barrier active second => exact ⟨active, second⟩
  · rintro ⟨active, second⟩
    exact ⟨_, .barrier active second⟩

/-- No barrier is under way during a sync. -/
theorem InTurn.not_active (inTurn : member.InTurn attrs total p) (busy : member.call ≠ .none ∨
    member.party.phase ≠ .idle) : ¬member.party.verbs.syncRequest.isActive = true := by
  intro active
  rcases inTurn.waits active with ⟨idle, none⟩
  rcases busy with notNone | notIdle
  · exact notNone none
  · exact notIdle idle

/-- What a turn does to the collectives of a process -/
inductive Issues (issued : Fin n → List (Collective n)) (p : Fin n) (member after : Member n) :
    Prop where
  | keeps (same : after.issued = member.issued) (waiting : member.Waiting → after.Waiting)
  | issues (free : ¬member.Waiting) (op : Collective n)
      (more : after.issued = member.issued ++ [op]) (waiting : after.Waiting)
  | returns (same : after.issued = member.issued)
      (reached : ∀ q, (issued p).length ≤ (issued q).length)

theorem Returns.reached {issued : Fin n → List (Collective n)} {op : Collective n}
    {result : op.Result} (returns : Returns issued p op result) (q : Fin n) :
    (issued p).length ≤ (issued q).length := by
  rcases returns with ⟨earlier, ends, reached, _⟩
  rw [ends, List.length_append, List.length_singleton]
  exact reached q

theorem Party.Steady.waiting {party : Party n} (steady : member.party.Steady party) :
    member.Waiting → ({ member with party := party } : Member n).Waiting := by
  rintro ⟨op, awaits⟩
  cases awaits with
  | vote voting => exact ⟨_, .vote voting⟩
  | reduction blocked => exact ⟨_, .reduction blocked⟩
  | barrier active second =>
      refine ⟨.ibarrier, .barrier ?_ ?_⟩
      · show party.verbs.syncRequest.isActive = true
        rw [steady.syncRequest]
        exact active
      · show party.verbs.syncRequest.secondPhase = true
        rw [steady.syncRequest]
        exact second

/-- A turn in which no collective is issued and none was waited for -/
theorem Issues.of_unblocked {issued : Fin n → List (Collective n)} (unblocked : member.Unblocked)
    (inactive : ¬member.party.verbs.syncRequest.isActive = true)
    (same : after.issued = member.issued) : Issues issued p member after :=
  .keeps same fun waiting => absurd ((waiting_iff unblocked).mp waiting).1 inactive

theorem InTurn.issues_look (inTurn : member.InTurn attrs total p) (phased : member.party.Phased)
    {issued : Fin n → List (Collective n)}
    (active : member.party.verbs.syncRequest.isActive = true) {flag : Bool}
    (test : flag = true → member.party.verbs.syncRequest.secondPhase = true →
      Returns issued p .ibarrier ()) {party : Party n}
    (processed : member.party.processSyncRequest flag = some party) :
    Issues issued p member { member with
      party := party
      issued := member.issued ++ barrierOps member.party party } := by
  have none := (inTurn.waits active).2
  have unblocked : member.Unblocked := .of_call none (by simp) (by simp)
  have silent : ∀ {party : Party n}, (party.verbs.syncRequest.secondPhase = true →
      member.party.verbs.syncRequest.secondPhase = true) →
        member.issued ++ barrierOps member.party party = member.issued := by
    intro party same
    rw [barrierOps, if_neg fun both => Bool.false_ne_true (both.2.symm.trans (same both.1)),
      List.append_nil]
  rw [Party.processSyncRequest] at processed
  rcases look_cases member.party.verbs flag with waits | faults | ⟨⟨_, second⟩, finishes⟩ |
    ⟨entry, first, _, _, ⟨_, starts⟩ | ⟨_, releases⟩⟩
  · rw [waits, Option.some.injEq] at processed
    subst processed
    refine .keeps (silent id) ?_
    rintro ⟨op, awaits⟩
    cases awaits with
    | vote voting => exact ⟨_, .vote voting⟩
    | reduction blocked => exact ⟨_, .reduction blocked⟩
    | barrier active second => exact ⟨_, .barrier active second⟩
  · rw [faults] at processed
    cases processed
  · have isTrue : flag = true := by
      cases flag with
      | true => rfl
      | false =>
          rw [IBVerbs.processSyncRequest] at finishes
          split at finishes
          next =>
            rw [if_neg Bool.false_ne_true] at finishes
            cases finishes
          next first => exact absurd ⟨(phased second).2, second⟩ first
    rw [finishes, Option.some.injEq] at processed
    subst processed
    exact .returns (silent fun absurd => (Bool.false_ne_true absurd).elim)
      (Returns.reached (test isTrue second))
  · rw [starts, Option.some.injEq] at processed
    subst processed
    have isFirst := phased.first first
    refine .issues ?_ .ibarrier ?_ ⟨.ibarrier, .barrier active rfl⟩
    · rw [waiting_iff unblocked, isFirst]
      exact fun both => Bool.false_ne_true both.2
    · show member.issued ++ barrierOps member.party _ = _
      rw [barrierOps, if_pos ⟨rfl, isFirst⟩]
  · rw [releases, Option.some.injEq] at processed
    subst processed
    have isFirst := phased.first first
    refine .keeps (silent id) ?_
    rw [waiting_iff unblocked, isFirst]
    exact fun both => (Bool.false_ne_true both.2).elim

theorem InTurn.issues (inTurn : member.InTurn attrs total p) (phased : member.party.Phased)
    {issued : Fin n → List (Collective n)} (turn : member.Turn attrs issued p after) :
    Issues issued p member after := by
  cases turn with
  | background moved => exact .keeps rfl (Party.Steady.waiting moved.steady)
  | @vote free task attr _ _ =>
      have unblocked : member.Unblocked := .of_call free.call (by simp) (by simp)
      refine .issues ?_ _ rfl ⟨_, .vote rfl⟩
      rw [waiting_iff unblocked, free.inactive]
      exact fun both => Bool.false_ne_true both.1
  | voted _ returns _ => exact .returns rfl (Returns.reached returns)
  | @drain task attr called _ =>
      rcases called with voted | ⟨free, _⟩
      · have unblocked : member.Unblocked := .of_call voted (by simp) (by simp)
        exact .of_unblocked unblocked (inTurn.not_active (Or.inl (by simp [voted]))) rfl
      · have unblocked : member.Unblocked := .of_call free.call (by simp) (by simp)
        exact .of_unblocked unblocked (by simp [free.inactive]) rfl
  | readCounts drained =>
      have none : member.call = .none := by
        rcases inTurn.position with ⟨_, _, location, _⟩
        exact location.none_of_drained drained
      have unblocked : member.Unblocked := .of_call none (by simp) (by simp)
      exact .of_unblocked unblocked (inTurn.not_active (Or.inr (by simp [drained]))) rfl
  | reduce reducing =>
      have unblocked : member.Unblocked := .of_call reducing (by simp) (by simp)
      have inactive := inTurn.not_active (Or.inl (by simp [reducing]))
      refine .issues ?_ _ rfl ⟨_, .reduction rfl⟩
      rw [waiting_iff unblocked]
      exact fun both => inactive both.1
  | reduced _ returns => exact .returns rfl (Returns.reached returns)
  | exchanged counted finished =>
      have unblocked : member.Unblocked := .of_call finished (by simp) (by simp)
      exact .of_unblocked unblocked (inTurn.not_active (Or.inr (by simp [counted]))) rfl
  | request ready _ =>
      have none : member.call = .none := by
        rcases inTurn.position with ⟨_, _, location, _⟩
        exact location.none_of_ready ready
      have unblocked : member.Unblocked := .of_call none (by simp) (by simp)
      exact .of_unblocked unblocked (inTurn.not_active (Or.inr (by simp [ready]))) rfl
  | look active test processed => exact inTurn.issues_look phased active test processed

/-- A process is in the sync, or comes to the sync, that ends its superstep. -/
theorem InTurn.sync_eq (inTurn : member.InTurn attrs total p) (tracked : member.party.Tracked)
    {k : ℕ} {place : Place n} (location : member.Location attrs total p k place) :
    k = member.party.superstep := by
  have epoch := tracked.epoch
  have inactive : member.call ≠ .none ∨ member.party.phase ≠ .idle →
      (if member.party.verbs.syncRequest.isActive then 1 else 0) = 0 :=
    fun busy => if_neg (inTurn.not_active busy)
  cases phase : member.party.phase <;> cases call : member.call <;>
    simp only [Location, phase, call] at location <;>
    rw [phase, SyncPhase.begun] at epoch
  case idle.none =>
    split at location
    next active =>
      rw [if_pos active, location.1] at epoch
      omega
    next inactive =>
      rw [if_neg inactive, location.1] at epoch
      omega
  case counted.reducing =>
    rcases location with ⟨_, _, _, counting, _⟩
    rw [inactive (Or.inr (by simp [phase])), counting.epoch] at epoch
    omega
  case counted.blocked =>
    rcases location with ⟨_, _, _, _, counting, _⟩
    rw [inactive (Or.inr (by simp [phase])), counting.epoch] at epoch
    omega
  all_goals
    rw [inactive (by simp [phase, call]), location.1] at epoch
    omega

/-- The collective that a process waits for is the last one that it has issued, and it belongs to
the sync that ends its superstep. -/
theorem InTurn.issued_of_awaits (inTurn : member.InTurn attrs total p)
    (tracked : member.party.Tracked) (phased : member.party.Phased) {op : Collective n}
    (awaits : member.Awaits op) : ∃ within, member.issued =
      opsBefore attrs member.party.sent member.party.superstep ++ within ++ [op] := by
  rcases inTurn.position with ⟨k, place, location, issued⟩
  rw [issued, ← inTurn.sync_eq tracked location]
  cases awaits with
  | vote voting =>
      cases phase : member.party.phase <;> simp only [Location, phase, voting] at location
      rcases location with ⟨_, alike, isDefault, rfl⟩
      rw [Place.ops, voteOps, if_pos (alike.1 ▸ isDefault)]
      exact ⟨[], by rw [List.append_nil]⟩
  | reduction blocked =>
      cases phase : member.party.phase <;> simp only [Location, phase, blocked] at location
      rename_i task attr counts
      rcases location with ⟨done, i, todo, remoteMsgs, counting, calls, rfl⟩
      cases calls
      have sent : counts i = member.party.sent i k := by
        rw [tracked.counted task attr counts phase i, counting.epoch, Nat.add_sub_cancel]
      rw [Place.ops, countOps, List.map_append, ← List.append_assoc, ← List.append_assoc, sent]
      exact ⟨_, by rw [← List.append_assoc]; rfl⟩
  | barrier active second =>
      rcases inTurn.waits active with ⟨idle, none⟩
      simp only [Location, idle, none, active, second, if_true] at location
      rcases location with ⟨_, sameBarrier, rfl⟩
      rw [Place.ops, syncOps, ← sameBarrier, (phased second).2, if_pos rfl, ← List.append_assoc]
      exact ⟨_, rfl⟩

/-- A process has issued all collectives of its completed syncs, and one more if it waits. -/
theorem InTurn.issued_superstep (inTurn : member.InTurn attrs total p)
    (tracked : member.party.Tracked) (phased : member.party.Phased) :
    (opsBefore attrs member.party.sent member.party.superstep).length ≤ member.issued.length ∧
      (member.Waiting → (opsBefore attrs member.party.sent member.party.superstep).length <
        member.issued.length) := by
  constructor
  · rcases inTurn.position with ⟨k, place, location, issued⟩
    rw [issued, ← inTurn.sync_eq tracked location, List.length_append]
    exact Nat.le_add_right _ _
  · rintro ⟨op, awaits⟩
    rcases inTurn.issued_of_awaits tracked phased awaits with ⟨within, issued⟩
    rw [issued, List.length_append, List.length_append, List.length_singleton]
    omega

/-- What a process has issued reaches as far as the superstep whose messages it is to count. -/
theorem InTurn.issued_taken (inTurn : member.InTurn attrs total p)
    (tracked : member.party.Tracked) : member.issued <+:
      opsBefore attrs member.party.sent member.party.taken ++
        requestOps attrs member.party.sent member.party.taken := by
  rcases inTurn.position with ⟨k, place, location, issued⟩
  have superstep := inTurn.sync_eq tracked location
  have reached : k ≤ member.party.taken := superstep ▸ Nat.le_add_right _ _
  rw [issued]
  rcases location.bounds with ⟨_, rfl | rfl⟩ | ⟨_, ⟨second, rfl⟩ | within⟩
  · exact ((List.prefix_append_right_inj _).mpr List.nil_prefix).trans
      (requestOps_prefix_of_le reached)
  · exact ((List.prefix_append_right_inj _).mpr (List.prefix_append _ _)).trans
      (requestOps_prefix_of_le reached)
  · have next : member.party.taken = k + 1 := by
      rw [Party.taken, second, superstep]
      rfl
    rw [next]
    exact List.prefix_append _ _
  · exact ((List.prefix_append_right_inj _).mpr (within _)).trans (requestOps_prefix_of_le reached)

end Member

namespace Team

variable {team after : Team n}

/-- No process is more than one collective ahead of another, and one that waits for none is not
ahead of any. -/
structure Abreast (team : Team n) : Prop where
  near : ∀ p q, (team p).issued.length ≤ (team q).issued.length + 1
  free : ∀ p, ¬(team p).Waiting → ∀ q, (team p).issued.length ≤ (team q).issued.length

theorem abreast_initial (devices : Fin n → Device n) : (initial devices).Abreast where
  near _ _ := Nat.zero_le _
  free _ _ _ := Nat.le_refl _

theorem Abreast.step (abreast : team.Abreast) (scheduled : team.Scheduled attrs) {p : Fin n}
    (taken : Step attrs team p after) : after.Abreast := by
  rcases taken with ⟨member, turn, rfl⟩
  have issues := (scheduled.inTurn p).issues (scheduled.phased p) turn
  -- whatever the process does, it does not fall behind
  have grows : ∀ q, (team q).issued.length ≤ (Function.update team p member q).issued.length := by
    intro q
    by_cases own : q = p
    · subst own
      rw [Function.update_self]
      cases issues with
      | keeps same _ => rw [same]
      | issues _ op more _ =>
          rw [more, List.length_append]
          exact Nat.le_add_right _ _
      | returns same _ => rw [same]
    · rw [Function.update_of_ne own]
  have ahead : ∀ q, member.issued.length ≤ (team q).issued.length + 1 ∧
      (¬member.Waiting → member.issued.length ≤ (team q).issued.length) := by
    intro q
    cases issues with
    | keeps same waiting =>
        rw [same]
        exact ⟨abreast.near p q, fun free => abreast.free p (fun waits => free (waiting waits)) q⟩
    | issues free op more waiting =>
        rw [more, List.length_append, List.length_singleton]
        exact ⟨Nat.succ_le_succ (abreast.free p free q), fun free => absurd waiting free⟩
    | returns same reached =>
        rw [same]
        exact ⟨Nat.le_succ_of_le (reached q), fun _ => reached q⟩
  constructor
  · intro r q
    by_cases own : r = p
    · subst own
      rw [Function.update_self]
      exact (ahead q).1.trans (Nat.succ_le_succ (grows q))
    · rw [Function.update_of_ne own]
      exact (abreast.near r q).trans (Nat.succ_le_succ (grows q))
  · intro r
    by_cases own : r = p
    · subst own
      rw [Function.update_self]
      exact fun free q => ((ahead q).2 free).trans (grows q)
    · rw [Function.update_of_ne own]
      exact fun free q => (abreast.free r free q).trans (grows q)

theorem Reachable.abreast {devices : Fin n → Device n} (run : Reachable attrs devices team) :
    team.Abreast := by
  have known : ∀ reached : Team n, Reachable attrs devices reached → reached.Scheduled attrs :=
    fun _ reached => Reachable.scheduled reached
  apply run.invariant_of known (abreast_initial devices)
  intro before _ after scheduled _ abreast _ taken
  exact abreast.step scheduled taken

namespace Scheduled

/-- A process for which no other one has issued less gets the result of its collective. -/
theorem exists_returns (scheduled : team.Scheduled attrs) {p : Fin n} {op : Collective n}
    (awaits : (team p).Awaits op)
    (fewest : ∀ q, (team p).issued.length ≤ (team q).issued.length) :
    ∃ result, Returns (fun q => (team q).issued) p op result := by
  rcases (scheduled.inTurn p).issued_of_awaits (scheduled.tracked p) (scheduled.phased p) awaits
    with ⟨within, ends⟩
  generalize opsBefore attrs (team p).party.sent (team p).party.superstep ++ within = earlier
    at ends
  have reached : ∀ q, earlier.length < (team q).issued.length := by
    intro q
    have here := fewest q
    rw [ends, List.length_append, List.length_singleton] at here
    exact here
  -- what all processes have issued at this place decides the result
  let ops : Fin n → Collective n := fun q => (team q).issued.get ⟨earlier.length, reached q⟩
  refine ⟨Collective.outcome ops p op, earlier, ends, reached, ?_⟩
  intro others found _
  have same : others = ops := by
    funext q
    have here := found q
    rw [List.getElem?_eq_getElem (reached q), Option.some.injEq] at here
    exact here.symm
  rw [same]

/-- Nobody casts another vote, so that every vote comes out as two zeros. -/
theorem vote_returns (scheduled : team.Scheduled attrs) {p : Fin n} {task : Task}
    {attr : SyncAttr} (voting : (team p).call = .voting task attr) {votes : Int × Int}
    (returns : Returns (fun q => (team q).issued) p (.iallreduceSum (0, 0)) votes) :
    votes = (0, 0) := by
  rcases (scheduled.inTurn p).position with ⟨k, place, location, issued⟩
  cases phase : (team p).party.phase <;> simp only [Member.Location, phase, voting] at location
  rcases location with ⟨_, alike, isDefault, rfl⟩
  have vote : voteOps attrs n k = [.iallreduceSum (0, 0)] := if_pos (alike.1 ▸ isDefault)
  rw [Place.ops, vote] at issued
  rcases returns with ⟨earlier, ends, reached, result⟩
  have places := List.append_inj_left' (ends.symm.trans issued) rfl
  have length : ∀ q, earlier.length = (opsBefore attrs (team q).party.sent k).length := by
    intro q
    rw [places, length_opsBefore k]
  have ops : ∀ q, (team q).issued[earlier.length]? = some (.iallreduceSum (0, 0)) := by
    intro q
    have here : earlier.length < (team q).issued.length := reached q
    rw [length q] at here ⊢
    apply scheduled.issued_at here
    rw [← vote]
    apply voteOps_prefix_of_le
    by_contra behind
    have within := ((scheduled.inTurn q).issued_leads.trans (voteOps_leads _)).trans
      (opsBefore_leads (Nat.lt_of_not_le behind))
    exact Nat.not_lt_of_le within.length_le here
  rw [result _ ops fun _ _ => rfl]
  simp [Collective.outcome, Collective.votes, Collective.ballot]

end Scheduled

/-- The processes of mixed modes are never more than one collective apart.  As long as some process
waits for a collective, there is one that gets its result, or one that waits for none and has issued
fewer.  No vote ends a sync or asks for a reconnection. -/
theorem collectives_progress (devices : Fin n → Device n) (run : Reachable attrs devices team) :
    (∀ p q, (team p).issued.length ≤ (team q).issued.length + 1) ∧
    (∀ p, (team p).Waiting →
      (∃ q op result, (team q).Awaits op ∧ Returns (fun q => (team q).issued) q op result) ∨
      ∃ q, ¬(team q).Waiting ∧ (team q).issued.length < (team p).issued.length) ∧
    ∀ p task attr votes, (team p).call = .voting task attr →
      Returns (fun q => (team q).issued) p (.iallreduceSum (0, 0)) votes → votes = (0, 0) := by
  have scheduled := Reachable.scheduled run
  refine ⟨(Reachable.abreast run).near, ?_, fun _ _ _ _ voting returns =>
    scheduled.vote_returns voting returns⟩
  intro p waiting
  have : Nonempty (Fin n) := ⟨p⟩
  rcases Finite.exists_min fun q => (team q).issued.length with ⟨q, fewest⟩
  by_cases waits : (team q).Waiting
  · rcases waits with ⟨op, awaits⟩
    rcases scheduled.exists_returns awaits fewest with ⟨result, returns⟩
    exact Or.inl ⟨q, op, result, awaits, returns⟩
  · by_cases fewer : (team q).issued.length < (team p).issued.length
    · exact Or.inr ⟨q, waits, fewer⟩
    · rcases waiting with ⟨op, awaits⟩
      have least : ∀ r, (team p).issued.length ≤ (team r).issued.length := fun r =>
        (Nat.le_of_not_lt fewer).trans (fewest r)
      rcases scheduled.exists_returns awaits least with ⟨result, returns⟩
      exact Or.inl ⟨p, op, result, awaits, returns⟩

/-- Process 0 has posted an operation to process 1, and both vote. -/
theorem collectives_progress_pair : ∃ team : Team 2, (team 0).party.sent 1 0 = 1 ∧
    (∀ p, (team p).Waiting) ∧
    ∃ p op result, (team p).Awaits op ∧ Returns (fun q => (team q).issued) p op result := by
  have isDefault : SyncAttr.default.mode = .default := by decide
  have started : Reachable (fun _ => .default) (fun _ => .generous 2)
      (initial fun _ : Fin 2 => .generous 2) := Transition.Reachable.refl
  have posted := started.turn (p := 0) (.background (.post 5 .put 1))
  have votes := posted.again (.vote ⟨rfl, rfl, rfl⟩ 6 ⟨rfl, rfl⟩ isDefault)
  have both := votes.turn (p := 1) (.vote ⟨rfl, rfl, rfl⟩ 6 ⟨rfl, rfl⟩ isDefault)
  obtain ⟨team, run, sent, waiting⟩ : ∃ team : Team 2,
      Reachable (fun _ => .default) (fun _ => .generous 2) team ∧ (team 0).party.sent 1 0 = 1 ∧
        ∀ p, (team p).Waiting :=
    ⟨_, both, by decide, Fin.forall_fin_two.mpr ⟨⟨_, .vote rfl⟩, ⟨_, .vote rfl⟩⟩⟩
  rcases (collectives_progress _ run).2.1 0 (waiting 0) with returns | ⟨q, free, _⟩
  · exact ⟨team, sent, waiting, returns⟩
  · exact absurd (waiting q) free

/-- When a process has completed a sync with a barrier, every process has counted all messages that
its own sync of that number waits for. -/
theorem barrier_separates (devices : Fin n → Device n) (run : Reachable attrs devices team)
    {p : Fin n} {k : ℕ} (barrier : (attrs k).barrier = true)
    (completed : k < (team p).party.superstep) (q : Fin n) : k < (team q).party.taken := by
  have scheduled := Reachable.scheduled run
  have abreast := Reachable.abreast run
  by_contra behind
  have least := (scheduled.inTurn p).issued_superstep (scheduled.tracked p) (scheduled.phased p)
  have enough : (opsBefore attrs (team p).party.sent (team p).party.superstep).length ≤
      (team q).issued.length := by
    by_cases waits : (team p).Waiting
    · have more := least.2 waits
      have near := abreast.near p q
      omega
    · exact least.1.trans (abreast.free p waits q)
  -- but without the barrier a process that is behind has issued fewer
  have fewer := ((scheduled.inTurn q).issued_taken (scheduled.tracked q)).trans
    (requestOps_prefix_of_le (Nat.le_of_not_lt behind))
  have short := fewer.length_le
  have long : (opsBefore attrs (team q).party.sent (k + 1)).length ≤ _ :=
    (opsBefore_leads completed).length_le
  rw [opsBefore, syncOps, barrier, if_pos rfl, List.length_append, List.length_append] at long
  rw [List.length_append] at short
  rw [@length_opsBefore _ _ _ (team q).party.sent] at enough
  simp only [List.length_singleton] at long
  omega

/-- A process whose messages have arrived enters the barrier of its first sync. -/
theorem Reachable.exists_second {devices : Fin n → Device n} (run : Reachable attrs devices team)
    (p : Fin n) (active : (team p).party.verbs.syncRequest.isActive = true)
    (barrier : (team p).party.verbs.syncRequest.withBarrier = true)
    (first : (team p).party.verbs.syncRequest.secondPhase = false)
    (start : (team p).party.verbs.syncCounter = BitVec.ofNat 32 0)
    (enough : (team p).party.verbs.syncRequest.remoteMsgs ≤ (team p).party.verbs.recvCounts 0) :
    ∃ member : Member n, Reachable attrs devices (Function.update team p member) ∧
      member.issued = (team p).issued ++ [.ibarrier] ∧
      member.party.verbs.syncRequest.isActive = true ∧
      member.party.verbs.syncRequest.withBarrier = true ∧
      member.party.verbs.syncRequest.secondPhase = true ∧
      member.party.superstep = (team p).party.superstep ∧
      member.party.log = (team p).party.log := by
  rcases World.exists_second barrier first (World.syncIndex_start start) enough with
    ⟨party, processed, _, still, isBarrier, second, superstep⟩
  have ops : Member.barrierOps (team p).party party = [.ibarrier] := if_pos ⟨second, first⟩
  have looked := run.turn (@Member.Turn.look _ _ _ _ _ active false
    (fun yes => absurd yes Bool.false_ne_true) _ processed)
  rw [ops] at looked
  exact ⟨_, looked, rfl, still.trans active, isBarrier, second, superstep,
    (Party.frame_processSyncRequest processed).2⟩

/-- `LPF_SYNC_MSG(N) | LPF_SYNC_BARRIER` -/
def barred (count : BitVec 32) : SyncAttr :=
  .decode ((0x2 <<< 28) + count ||| SyncAttr.barrierMask)

/-- Process 0 posts an operation to process 1, and both request a sync with a barrier. -/
theorem exists_requested_pair : ∃ team : Team 2,
    Reachable (fun _ => barred 0) (fun _ => .generous 2) team ∧ (∀ p, (team p).issued = []) ∧
      (∀ p, (team p).party.superstep = 0) ∧ (team 0).party.sent 1 0 = 1 ∧ ∀ p,
        (team p).party.verbs.syncRequest.isActive = true ∧
        (team p).party.verbs.syncRequest.withBarrier = true ∧
        (team p).party.verbs.syncRequest.secondPhase = false ∧
        (team p).party.verbs.syncCounter = BitVec.ofNat 32 0 ∧
        (team p).party.verbs.syncRequest.remoteMsgs ≤ (team p).party.verbs.recvCounts 0 := by
  let op : Posted 2 := (Party.initial (.generous 2)).operation 5 1
  have started : Reachable (fun _ => barred 0) (fun _ => .generous 2)
      (initial fun _ : Fin 2 => .generous 2) := Transition.Reachable.refl
  have posted := started.turn (p := 0) (.background (.post 5 .put 1))
  have completed := posted.again (.background (.complete (Multiset.cons_zero op).symm))
  have polled := completed.again (.background (@Party.Background.localProgress _ _ [op] 0 rfl))
  have drained := polled.again (@Member.Turn.drain _ _ _ _ _ 6 (barred 0)
    (Or.inr ⟨⟨rfl, rfl, rfl⟩, ⟨rfl, rfl⟩, by decide⟩) (by decide))
  have read := drained.again (.readCounts rfl)
  have requested := read.again (.request rfl rfl)
  have begun := requested.turn (p := 1) (@Member.Turn.drain _ _ _ _ _ 6 (barred 1)
    (Or.inr ⟨⟨rfl, rfl, rfl⟩, ⟨by decide, by decide⟩, by decide⟩) (by decide))
  have counted := begun.again (.readCounts rfl)
  have asking := counted.again (.request rfl rfl)
  have arrived := asking.again (.background (.remoteProgress [op]))
  exact ⟨_, arrived, Fin.forall_fin_two.mpr ⟨rfl, rfl⟩, Fin.forall_fin_two.mpr ⟨rfl, rfl⟩,
    by decide, Fin.forall_fin_two.mpr
      ⟨⟨rfl, rfl, rfl, rfl, by decide⟩, ⟨rfl, rfl, rfl, rfl, by decide⟩⟩⟩

/-- Process 0 completes the sync. -/
theorem exists_passed_pair : ∃ team : Team 2,
    Reachable (fun _ => barred 0) (fun _ => .generous 2) team ∧ (team 0).party.superstep = 1 ∧
      (team 0).party.sent 1 0 = 1 ∧ (team 1).party.superstep = 0 := by
  rcases exists_requested_pair with ⟨team, run, issued, superstep, sent, waits⟩
  rcases waits 0 with ⟨active, barrier, first, start, enough⟩
  rcases run.exists_second 0 active barrier first start enough with
    ⟨member, one, ops, isActive, isBarrier, second, still, log⟩
  let ahead : Team 2 := Function.update team 0 member
  have reached : Reachable (fun _ => barred 0) (fun _ => .generous 2) ahead := one
  have apart : ahead 1 = team 1 := Function.update_of_ne (by decide) _ _
  rcases waits 1 with ⟨active, barrier, first, start, enough⟩
  rw [← apart] at active barrier first start enough
  rcases reached.exists_second 1 active barrier first start enough with
    ⟨other, both, opsToo, _, _, _, stillToo, _⟩
  let among : Team 2 := Function.update ahead 1 other
  have entered : Reachable (fun _ => barred 0) (fun _ => .generous 2) among := both
  have own : among 0 = member := Function.update_of_ne (by decide) _ _
  -- both have issued the barrier, so it can end at process 0
  have returns : Returns (fun q => (among q).issued) 0 .ibarrier () := by
    have alike : (fun q => (among q).issued) = fun _ => [] ++ [.ibarrier] := by
      funext q
      revert q
      refine Fin.forall_fin_two.mpr ⟨?_, ?_⟩
      · rw [own, ops, issued]
      · show other.issued = _
        rw [opsToo, apart, issued]
    rw [alike]
    exact returns_issued (fun _ => rfl) 0 rfl
  rcases World.exists_finished isBarrier second with ⟨party, processed, _, _, next⟩
  have sentToo : party.sent 1 0 = (team 0).party.sent 1 0 := by
    rw [Party.sent, (Party.frame_processSyncRequest processed).2, log, ← Party.sent]
  rw [← own] at isActive processed
  have passed := entered.turn (.look isActive (fun _ _ => returns) processed)
  exact ⟨_, passed, next.trans (congrArg Nat.succ (still.trans (superstep 0))),
    sentToo.trans sent, stillToo.trans (apart ▸ superstep 1)⟩

/-- Process 1 has counted the message. -/
theorem barrier_separates_pair : ∃ team : Team 2, (team 0).party.superstep = 1 ∧
    (team 0).party.sent 1 0 = 1 ∧ (team 1).party.superstep = 0 ∧ 0 < (team 1).party.taken := by
  rcases exists_passed_pair with ⟨team, run, completed, sent, behind⟩
  have barrier : (barred 0).barrier = true := by decide
  have first : 0 < (team 0).party.superstep := by
    rw [completed]
    exact Nat.zero_lt_one
  exact ⟨team, completed, sent, behind, barrier_separates _ run barrier first 1⟩

end Team

end IBVerbs

end Talpf
