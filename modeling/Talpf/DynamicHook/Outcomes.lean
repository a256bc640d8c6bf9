import Talpf.DynamicHook.Joining
import Mathlib.Data.List.Sort

/-!
# When a hook builds the requested communicator

No hook gets stuck, and its processes never make different collectives.  But a
client that the server fails to hand its port or its index to is skipped, and
the hook goes on with the clients after it.  Only the assertions stop it, at the
next client.
-/

namespace Talpf

namespace DynamicHook

variable {m : ℕ} {launch : Launch m}

theorem finRange_split : List.finRange (m + 1) = [server] ++ iterations server := by
  simp [iterations, List.finRange_succ]

theorem start_at :
    At launch (Config.start launch) (launch.joined [server]) [server] fun i =>
      rounds launch i (iterations server) (launch.joined [server]) := by
  have alone : launch.joined [server] = [server] := by simp [Launch.joined, Launch.keeps]
  rw [alone]
  refine ⟨?_, ?_, fun _ _ => rfl, fun _ => List.suffix_refl _⟩
  · intro i member
    obtain rfl : i = server := by simpa using member
    simp [Config.start, dynamicHook, launch.pid_server]
  · intro i client
    have notServer : i ≠ server := by simpa using client
    refine ⟨fun told => absurd told client, fun _ => ⟨rfl, Or.inl ?_⟩⟩
    exact dynamicHook_client launch notServer

theorem stage_start : Stage launch (Config.start launch) := by
  refine .head finRange_split (by simp) ?_ start_at
  intro _ q member
  simp at member

theorem stage_of_reachable {config : Config m} (run : Reachable launch config) :
    Stage launch config := by
  induction run with
  | refl => exact stage_start
  | tail _ step ih => exact ih.step step

namespace At

variable {config : Config m} {past rest : List (Fin (m + 1))} {p : Fin (m + 1)}

theorem can_write (split : List.finRange (m + 1) = past ++ p :: rest) (started : server ∈ past)
    (passed : Checked launch past)
    (here : At launch config (launch.joined past) past fun i =>
      rounds launch i (p :: rest) (launch.joined past)) :
    Step config (Stage.written launch config past rest p) := by
  apply Step.write
  rw [here.member server (Launch.server_joined started)]
  exact Stage.rounds_of_checked split passed

theorem can_allreduce (started : server ∈ past)
    (here : At launch config (launch.joined past) (past ++ [p]) fun i =>
      .allreduce (launch.joined past) (if i = server then launch.handsOut p else true)
        (afterReduce launch i p rest (launch.joined past))) :
    ∃ after, Step config after ∧
      At launch after (launch.joined past) (past ++ [p]) fun i =>
        afterReduce launch i p rest (launch.joined past) (launch.handsOut p) := by
  have leads : server ∈ launch.joined past := Launch.server_joined started
  refine ⟨_, .allreduce (List.ne_nil_of_mem leads) here.member, ?_⟩
  apply Stage.after_allreduce started here
  intro i _
  rw [Stage.all_success started fun _ _ => rfl]

theorem can_accept (split : List.finRange (m + 1) = past ++ p :: rest) (started : server ∈ past)
    (here : At launch config (launch.joined past) (past ++ [p]) fun i =>
      .accept (launch.joined past) fun newcomm =>
        .merge newcomm false (afterMerge launch i p rest))
    (connects : config.code p = afterRead launch p (some p)) :
    ∃ after, Step config after ∧
      At launch after (launch.joined past ++ [p]) (past ++ [p]) fun i =>
        if i = p then
          .merge ⟨[p], launch.joined past⟩ true fun comm => rounds launch p (iterations p) comm
        else .merge ⟨launch.joined past, [p]⟩ false (afterMerge launch i p rest) := by
  have leads : server ∈ launch.joined past := Launch.server_joined started
  have apart : p ∉ launch.joined past := fun member =>
    not_mem_past split (Launch.mem_joined.mp member).1
  let next (i : Fin (m + 1)) (newcomm : Intercomm m) : Code m :=
    if i = p then .merge newcomm true fun comm => rounds launch p (iterations p) comm
    else .merge newcomm false (afterMerge launch i p rest)
  have distinct : ∀ i ∈ launch.joined past, i ≠ p := by
    rintro i member rfl
    exact apart member
  have accepts : ∀ i ∈ launch.joined past,
      config.code i = .accept (launch.joined past) (next i) := by
    intro i member
    rw [here.member i member]
    simp only [next, if_neg (distinct i member)]
  have joins : ∀ i ∈ [p], config.code i = .connect [p] (next i) := by
    intro i member
    obtain rfl : i = p := by simpa using member
    rw [connects]
    simp [afterRead, next]
  refine ⟨_, .accept (List.ne_nil_of_mem leads) (by simp) accepts joins, ?_⟩
  apply Stage.after_accept started here
  · intro i member
    simp only [next, if_neg (distinct i member), if_pos member]
  · simp only [next, if_true, if_neg apart]

theorem can_merge (split : List.finRange (m + 1) = past ++ p :: rest) (started : server ∈ past)
    (passed : Checked launch past) (kept : launch.handsOut p)
    (here : At launch config (launch.joined past ++ [p]) (past ++ [p]) fun i =>
      if i = p then
        .merge ⟨[p], launch.joined past⟩ true fun comm => rounds launch p (iterations p) comm
      else .merge ⟨launch.joined past, [p]⟩ false (afterMerge launch i p rest)) :
    ∃ after, Step config after ∧
      At launch after (launch.joined (past ++ [p])) (past ++ [p]) fun i =>
        rounds launch i rest (launch.joined (past ++ [p])) := by
  have leads : server ∈ launch.joined past := Launch.server_joined started
  have distinct : ∀ i ∈ launch.joined past, i ≠ p := by
    rintro i member rfl
    exact not_mem_past split (Launch.mem_joined.mp member).1
  let next (i : Fin (m + 1)) : Comm m → Code m :=
    if i = p then fun comm => rounds launch p (iterations p) comm
    else afterMerge launch i p rest
  have lows : ∀ i ∈ launch.joined past,
      config.code i = .merge ⟨launch.joined past, [p]⟩ false (next i) := by
    intro i member
    rw [here.member i (List.mem_append_left _ member)]
    simp only [next, if_neg (distinct i member)]
  have highs : ∀ i ∈ [p], config.code i = .merge ⟨[p], launch.joined past⟩ true (next i) := by
    intro i member
    obtain rfl : i = p := by simpa using member
    rw [here.member i (by simp)]
    simp only [next, if_true]
  refine ⟨_, .merge (List.ne_nil_of_mem leads) (by simp) lows highs, ?_⟩
  apply Stage.after_merge split started passed kept here
  · intro i member
    simp only [next, if_neg (distinct i member)]
  · simp only [next, if_true]

theorem can_split (started : server ∈ past)
    (here : At launch config (launch.joined past) past fun i =>
      rounds launch i [] (launch.joined past)) :
    ∃ after, Step config after ∧
      At launch after (launch.joined past) past fun _ =>
        .returns (sorted launch.pid (launch.joined past)) := by
  have leads : server ∈ launch.joined past := Launch.server_joined started
  refine ⟨_, .split (List.ne_nil_of_mem leads) here.member, ?_⟩
  exact Stage.after_split started here _ fun _ _ => rfl

/-- A client that has been told reads it, unless it has done so. -/
theorem can_read {members : Comm m} {point : Fin (m + 1) → Code m}
    (here : At launch config members (past ++ [p]) point) (leads : server ∈ members)
    (apart : p ∉ members) :
    config.code p = afterRead launch p (launch.answer p) ∨
      ∃ after, Step config after ∧ after.code p = afterRead launch p (launch.answer p) ∧
        At launch after members (past ++ [p]) point := by
  rcases (here.outside p apart).told (by simp) with ⟨written, reading | reached⟩
  · right
    refine ⟨_, .read reading written, ?_, here.read leads apart (Or.inl written)⟩
    simp [Config.proceed]
  · exact Or.inl reached

/-- Once the server has ended, whoever is outside can find out. -/
theorem ends {members : Comm m} {point : Fin (m + 1) → Code m}
    (here : At launch config members past point) (finished : (config.code server).Done)
    (all : ∀ i ∈ past, launch.keeps i → i ∈ members) (ended : ∀ i ∈ members, (point i).Done) :
    (∀ i, (config.code i).Done) ∨ ∃ after, Step config after := by
  by_cases reading : ∃ i ∉ members, config.code i = .read (afterRead launch i)
  · rcases reading with ⟨i, apart, call⟩
    right
    by_cases told : i ∈ past
    · exact ⟨_, .read call ((here.outside i apart).told told).1⟩
    · exact ⟨_, .lost call ((here.outside i apart).waiting told).1 finished⟩
  · left
    intro i
    by_cases inside : i ∈ members
    · rw [here.member i inside]
      exact ended i inside
    · have notReading : config.code i ≠ .read (afterRead launch i) := fun call =>
        reading ⟨i, inside, call⟩
      by_cases told : i ∈ past
      · have reached := ((here.outside i inside).told told).2.resolve_left notReading
        have lost : launch.handsOut i = false := by
          have notKept := mt (all i told) inside
          simp [Launch.keeps] at notKept
          exact notKept.2
        rw [reached]
        simpa [Launch.answer, lost, afterRead] using Code.Done.throws
      · have thrown := ((here.outside i inside).waiting told).2.resolve_left notReading
        rw [thrown.1]
        exact .throws

end At

theorem Stage.progress {config : Config m} (stage : Stage launch config) :
    (∀ i, (config.code i).Done) ∨ ∃ after, Step config after := by
  cases stage with
  | @head past rest split started passed here =>
      have leads : server ∈ launch.joined past := Launch.server_joined started
      cases rest with
      | nil =>
          rcases here.can_split started with ⟨after, step, _⟩
          exact Or.inr ⟨after, step⟩
      | cons p rest =>
          by_cases checked : Checked launch past
          · exact Or.inr ⟨_, here.can_write split started checked⟩
          · have aborted : ∀ i, rounds launch i (p :: rest) (launch.joined past) = .aborts :=
              fun i => by rw [rounds_cons, if_pos ((check_eq split).mpr checked)]
            apply here.ends
            · rw [here.member server leads, aborted]
              exact .aborts
            · exact fun i inside kept => Launch.mem_joined.mpr ⟨inside, kept⟩
            · intro i _
              rw [aborted]
              exact .aborts
  | reducing split started passed here =>
      rcases here.can_allreduce started with ⟨after, step, _⟩
      exact Or.inr ⟨after, step⟩
  | @accepting past rest p split started passed kept here =>
      have apart : p ∉ launch.joined past := fun member =>
        not_mem_past split (Launch.mem_joined.mp member).1
      right
      rcases here.can_read (Launch.server_joined started) apart with reached | ⟨after, step, _⟩
      · rw [Launch.answer, if_pos kept] at reached
        rcases here.can_accept split started reached with ⟨after, step, _⟩
        exact ⟨after, step⟩
      · exact ⟨after, step⟩
  | merging split started passed kept here =>
      rcases here.can_merge split started passed kept with ⟨after, step, _⟩
      exact Or.inr ⟨after, step⟩
  | settled passed here =>
      have leads : server ∈ launch.joined (List.finRange (m + 1)) :=
        Launch.server_joined (List.mem_finRange server)
      apply here.ends
      · rw [here.member server leads]
        exact .returns _
      · exact fun i inside kept => Launch.mem_joined.mpr ⟨inside, kept⟩
      · exact fun i _ => .returns _

theorem Stage.same {config : Config m} (stage : Stage launch config) : SameCollectives config := by
  cases stage with
  | head _ _ _ here => exact here.same
  | reducing _ _ _ here => exact here.same
  | accepting _ _ _ _ here => exact here.same
  | merging _ _ _ _ here => exact here.same
  | settled _ here => exact here.same

theorem At.iterate {config : Config m} {past rest : List (Fin (m + 1))} {p : Fin (m + 1)}
    (split : List.finRange (m + 1) = past ++ p :: rest) (started : server ∈ past)
    (passed : Checked launch past)
    (here : At launch config (launch.joined past) past fun i =>
      rounds launch i (p :: rest) (launch.joined past)) :
    ∃ after, Relation.ReflTransGen Step config after ∧
      At launch after (launch.joined (past ++ [p])) (past ++ [p]) fun i =>
        rounds launch i rest (launch.joined (past ++ [p])) := by
  have leads : server ∈ launch.joined past := Launch.server_joined started
  have apart : p ∉ launch.joined past := fun member =>
    not_mem_past split (Launch.mem_joined.mp member).1
  have write := here.can_write split started passed
  rcases (Stage.after_write split started passed here).can_allreduce started with
    ⟨reduced, reduce, hereReduced⟩
  have run := (Relation.ReflTransGen.single write).tail reduce
  cases handed : launch.handsOut p with
  | false => exact ⟨reduced, run, Stage.head_of_lost split started handed hereReduced⟩
  | true =>
      have answered : launch.answer p = some p := if_pos handed
      have accepting : ∃ told, Relation.ReflTransGen Step config told ∧
          told.code p = afterRead launch p (some p) ∧
          At launch told (launch.joined past) (past ++ [p]) fun i =>
            .accept (launch.joined past) fun newcomm =>
              .merge newcomm false (afterMerge launch i p rest) := by
        simp only [handed, afterReduce, if_true] at hereReduced
        rw [← answered]
        rcases hereReduced.can_read leads apart with reached | ⟨told, read, reached, hereTold⟩
        · exact ⟨reduced, run, reached, hereReduced⟩
        · exact ⟨told, run.tail read, reached, hereTold⟩
      rcases accepting with ⟨told, runTold, reached, hereTold⟩
      rcases hereTold.can_accept split started reached with ⟨accepted, accept, hereAccepted⟩
      rcases hereAccepted.can_merge split started passed handed with ⟨merged, merge, hereMerged⟩
      exact ⟨merged, (runTold.tail accept).tail merge, hereMerged⟩

/-- Unless an assertion fails, the loop can run to its end. -/
theorem At.run {config : Config m} {past : List (Fin (m + 1))} :
    ∀ {rest : List (Fin (m + 1))}, List.finRange (m + 1) = past ++ rest → server ∈ past →
      Checked launch (List.finRange (m + 1)).dropLast →
      (At launch config (launch.joined past) past fun i =>
        rounds launch i rest (launch.joined past)) →
      ∃ after, Relation.ReflTransGen Step config after ∧
        At launch after (launch.joined (List.finRange (m + 1))) (List.finRange (m + 1)) fun _ =>
          .returns (sorted launch.pid (launch.joined (List.finRange (m + 1)))) := by
  intro rest
  induction rest generalizing past config with
  | nil =>
      intro split started passed here
      obtain rfl : List.finRange (m + 1) = past := by simpa using split
      rcases here.can_split started with ⟨after, step, hereAfter⟩
      exact ⟨after, .single step, hereAfter⟩
  | cons p rest ih =>
      intro split started passed here
      have checked : Checked launch past := by
        intro debug q member
        refine passed debug q ?_
        rw [split, List.dropLast_append_of_ne_nil (by simp)]
        exact List.mem_append_left _ member
      rcases here.iterate split started checked with ⟨middle, run, hereMiddle⟩
      rcases ih (Stage.split_next split) (by simp [started]) passed hereMiddle with
        ⟨after, further, hereAfter⟩
      exact ⟨after, run.trans further, hereAfter⟩

theorem length_sorted {key : Fin (m + 1) → Fin (m + 1)} {comm : Comm m} :
    (sorted key comm).length = comm.length := List.length_mergeSort _

/-- Sorting all processes by their `pid` puts each where its `pid` says. -/
theorem map_pid_sorted (launch : Launch m) :
    (sorted launch.pid (List.finRange (m + 1))).map launch.pid = List.finRange (m + 1) := by
  have moved : (sorted launch.pid (List.finRange (m + 1))).map launch.pid =
      ((List.finRange (m + 1)).map launch.pid).mergeSort fun a b => decide (a ≤ b) := by
    unfold sorted
    rw [List.map_mergeSort]
    intros
    rfl
  have shuffled : ((List.finRange (m + 1)).map launch.pid).Perm (List.finRange (m + 1)) := by
    apply (List.perm_ext_iff_of_nodup _ (List.nodup_finRange _)).mpr
    · intro i
      simp only [List.mem_finRange, iff_true, List.mem_map, true_and]
      exact ⟨launch.pid.symm i, launch.pid.apply_symm_apply i⟩
    · exact (List.nodup_finRange _).map launch.pid.injective
  rw [moved]
  have transitive : ∀ a b c : Fin (m + 1),
      decide (a ≤ b) → decide (b ≤ c) → decide (a ≤ c) := by
    intro a b c
    simpa using le_trans
  have total : ∀ a b : Fin (m + 1), decide (a ≤ b) || decide (b ≤ a) := by
    intro a b
    simpa using le_total a b
  have ordered := List.pairwise_mergeSort transitive total
    ((List.finRange (m + 1)).map launch.pid)
  apply ((List.mergeSort_perm _ _).trans shuffled).eq_of_pairwise _ ordered
  · simpa using List.pairwise_le_finRange (m + 1)
  · intro a b _ _ below above
    exact le_antisymm (of_decide_eq_true below) (of_decide_eq_true above)

theorem whole_sorted (i : Fin (m + 1)) :
    Whole launch i (sorted launch.pid (List.finRange (m + 1))) := by
  refine ⟨by rw [length_sorted, List.length_finRange], ?_⟩
  have rank : ((sorted launch.pid (List.finRange (m + 1))).map launch.pid)[(launch.pid i).val]? =
      some (launch.pid i) := by
    rw [map_pid_sorted]
    have bound : (launch.pid i).val < (List.finRange (m + 1)).length := by
      rw [List.length_finRange]
      exact (launch.pid i).isLt
    exact List.getElem?_eq_some_iff.mpr ⟨bound, List.getElem_finRange bound⟩
  rw [List.getElem?_map, Option.map_eq_some_iff] at rank
  rcases rank with ⟨process, found, same⟩
  rw [found, launch.pid.injective same]

/-- The server hands its port and an index to every client. -/
def HandsOut (launch : Launch m) : Prop := ∀ p, p ≠ server → launch.handsOut p

/-- A failure that the assertions find, because there is another client to be told. -/
def Aborts (launch : Launch m) : Prop :=
  launch.debug ∧ ∃ p, p ≠ server ∧ p ≠ Fin.last m ∧ launch.handsOut p = false

theorem keeps_all : HandsOut launch ↔ ∀ p, launch.keeps p := by
  simp only [HandsOut, Launch.keeps, Bool.or_eq_true, decide_eq_true_eq, or_iff_not_imp_left]

theorem dropLast_finRange :
    (List.finRange (m + 1)).dropLast = (List.finRange m).map Fin.castSucc := by
  rw [List.finRange_succ_last]
  simp

/-- The assertions hold unless there is a failure that they find. -/
theorem checked_iff : Checked launch (List.finRange (m + 1)).dropLast ↔ ¬Aborts launch := by
  have last : ∀ p : Fin (m + 1), p ∈ (List.finRange (m + 1)).dropLast ↔ p ≠ Fin.last m := by
    intro p
    rw [dropLast_finRange]
    simp [Fin.exists_castSucc_eq]
  simp only [Checked, Aborts, last, Launch.keeps, Bool.or_eq_true, decide_eq_true_eq]
  constructor
  · rintro passed ⟨debug, p, client, notLast, lost⟩
    rcases passed debug p notLast with leads | handed
    · exact client leads
    · rw [handed] at lost
      cases lost
  · intro fine debug p notLast
    by_contra lost
    have lost' := not_or.mp lost
    exact fine ⟨debug, p, lost'.1, notLast, by simpa using lost'.2⟩

/-- Whoever returns holds the communicator of the processes that were kept. -/
theorem returns_joined {config : Config m} (stage : Stage launch config) {i : Fin (m + 1)}
    {comm : Comm m} (returned : config.code i = .returns comm) :
    comm = sorted launch.pid (launch.joined (List.finRange (m + 1))) ∧
      Checked launch (List.finRange (m + 1)).dropLast := by
  have inside : ∀ {members sent point}, At launch config members sent point →
      point i = .returns comm := by
    intro members sent point here
    by_cases member : i ∈ members
    · exact (here.member i member).symm.trans returned
    · have outside := here.outside i member
      by_cases told : i ∈ sent
      · rcases (outside.told told).2 with reading | reached
        · simp [reading] at returned
        · rw [reached] at returned
          cases answered : launch.answer i <;> simp [answered, afterRead] at returned
      · rcases (outside.waiting told).2 with reading | ⟨thrown, _⟩
        · simp [reading] at returned
        · simp [thrown] at returned
  cases stage with
  | @head past rest split started passed here =>
      have point := inside here
      cases rest with
      | nil => simp [rounds] at point
      | cons p rest =>
          rw [rounds_cons] at point
          split at point
          · cases point
          · split at point <;> cases point
  | reducing split started passed here => cases inside here
  | accepting split started passed kept here => cases inside here
  | merging split started passed kept here =>
      have point := inside here
      split at point <;> cases point
  | settled passed here =>
      have point := inside here
      injection point with same
      exact ⟨same.symm, passed⟩

/--
A hook builds the requested communicator or fails everywhere exactly if the
server reaches every client, or if an assertion finds out that it has not.
-/
theorem hooksTogether_iff (launch : Launch m) :
    HooksTogether launch ↔ HandsOut launch ∨ Aborts launch := by
  constructor
  · intro together
    by_contra neither
    obtain ⟨lost, fine⟩ := not_or.mp neither
    -- the loop runs to its end, without the client that was lost
    rcases start_at.run finRange_split (by simp) (checked_iff.mpr fine) with ⟨after, run, here⟩
    have leads : server ∈ launch.joined (List.finRange (m + 1)) :=
      Launch.server_joined (List.mem_finRange server)
    have whole := (together after run).2.2 server _ (here.member server leads)
    have size := whole.1
    rw [length_sorted] at size
    apply lost
    apply keeps_all.mpr
    intro p
    refine Launch.length_joined.mp ?_ p (List.mem_finRange p)
    rw [size, List.length_finRange]
  · intro outcome config run
    have stage := stage_of_reachable run
    refine ⟨stage.same, stage.progress, fun i comm returned => ?_⟩
    rcases returns_joined stage returned with ⟨rfl, passed⟩
    rcases outcome with handed | aborts
    · have everybody : launch.joined (List.finRange (m + 1)) = List.finRange (m + 1) :=
        List.filter_eq_self.mpr fun p _ => keeps_all.mp handed p
      rw [everybody]
      exact whole_sorted i
    · exact absurd aborts (checked_iff.mp passed)

/-- Two processes, of which the server cannot send the port name to the other. -/
def brokenSocket (debug : Bool) : Launch 1 where
  pid := Equiv.refl _
  debug := debug
  writesPort := fun _ => false
  writesIndex := fun _ => true
  pid_server := rfl

/-- The server returns alone, and no assertion notices, since there is no further client. -/
theorem not_hooksTogether_brokenSocket :
    ¬HooksTogether (brokenSocket false) ∧ ¬HooksTogether (brokenSocket true) := by
  have alone : ∀ debug, ¬HooksTogether (brokenSocket debug) := by
    intro debug together
    have passed : Checked (brokenSocket debug) [server] := by
      intro _ q member
      obtain rfl : q = server := by simpa using member
      rfl
    have checked : Checked (brokenSocket debug) (List.finRange 2).dropLast := passed
    rcases start_at.run finRange_split (by simp) checked with ⟨after, run, here⟩
    have leads : server ∈ (brokenSocket debug).joined (List.finRange 2) :=
      Launch.server_joined (List.mem_finRange server)
    have whole := (together after run).2.2 server _ (here.member server leads)
    have size := whole.1
    rw [length_sorted] at size
    have single : ((brokenSocket debug).joined (List.finRange 2)).length = 1 := rfl
    exact absurd (single.symm.trans size) (by decide)
  exact ⟨alone false, alone true⟩

end DynamicHook

end Talpf
