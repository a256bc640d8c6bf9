import Talpf.DynamicHook

/-!
# The joined processes stay together

Every configuration of a hook is at one of five stages of one iteration, at
which all processes joined so far are at the same place of the loop.  A client
outside the communicator waits for the server, or has been told whether it is
the next one.
-/

namespace Talpf

namespace DynamicHook

variable {m : ℕ} (launch : Launch m)

def afterMerge (self p : Fin (m + 1)) (rest : List (Fin (m + 1))) (comm : Comm m) : Code m :=
  if launch.debug && comm.length != p.val + 1 then .aborts else rounds launch self rest comm

def afterReduce (self p : Fin (m + 1)) (rest : List (Fin (m + 1))) (comm : Comm m)
    (allSuccess : Bool) : Code m :=
  if allSuccess then
    .accept comm fun newcomm => .merge newcomm false (afterMerge launch self p rest)
  else rounds launch self rest comm

def afterRead (self : Fin (m + 1)) : Option (Fin (m + 1)) → Code m
  | none => .throws
  | some p0 =>
      .connect [self] fun newcomm =>
        .merge newcomm true fun comm => rounds launch self (iterations p0) comm

theorem rounds_cons {self p : Fin (m + 1)} {rest : List (Fin (m + 1))} {comm : Comm m} :
    rounds launch self (p :: rest) comm =
      if launch.debug && comm.length != p.val then .aborts
      else if (launch.pid self).val = 0 then
        .write p (launch.answer p)
          (.allreduce comm (launch.handsOut p) (afterReduce launch self p rest comm))
      else .allreduce comm true (afterReduce launch self p rest comm) := rfl

theorem dynamicHook_client {self : Fin (m + 1)} (client : self ≠ server) :
    dynamicHook launch self = .read (afterRead launch self) := by
  have pid : (launch.pid self).val ≠ 0 := fun zero => client (launch.pid_eq_zero.mp zero)
  unfold dynamicHook
  rw [if_neg pid]
  rfl

theorem afterRead_not_read {self : Fin (m + 1)} {bytes : Option (Fin (m + 1))}
    {next : Option (Fin (m + 1)) → Code m} : afterRead launch self bytes ≠ .read next := by
  cases bytes <;> simp [afterRead]

namespace Launch

/-- The process is the server, or a client to which everything was handed out. -/
def keeps (p : Fin (m + 1)) : Bool := p = server || launch.handsOut p

/-- The communicator after the iterations of the given processes. -/
def joined (past : List (Fin (m + 1))) : Comm m := past.filter launch.keeps

variable {launch} {past rest : List (Fin (m + 1))} {p : Fin (m + 1)}

theorem mem_joined {i : Fin (m + 1)} : i ∈ launch.joined past ↔ i ∈ past ∧ launch.keeps i :=
  List.mem_filter

theorem server_joined (started : server ∈ past) : server ∈ launch.joined past :=
  mem_joined.mpr ⟨started, by simp [keeps]⟩

theorem length_joined :
    (launch.joined past).length = past.length ↔ ∀ q ∈ past, launch.keeps q :=
  List.length_filter_eq_length_iff

theorem joined_append_of_keeps (kept : launch.keeps p) :
    launch.joined (past ++ [p]) = launch.joined past ++ [p] := by
  simp [joined, List.filter_append, kept]

theorem joined_append_of_not_keeps (lost : launch.keeps p = false) :
    launch.joined (past ++ [p]) = launch.joined past := by
  simp [joined, List.filter_append, lost]

end Launch

section Iterations

variable {past rest : List (Fin (m + 1))} {p : Fin (m + 1)}

theorem val_eq_length (split : List.finRange (m + 1) = past ++ p :: rest) :
    p.val = past.length := by
  have found : (List.finRange (m + 1))[past.length]? = some p := by simp [split]
  rcases List.getElem?_eq_some_iff.mp found with ⟨bound, equal⟩
  rw [List.getElem_finRange] at equal
  rw [← equal]
  rfl

theorem iterations_eq (split : List.finRange (m + 1) = past ++ p :: rest) :
    iterations p = rest := by
  unfold iterations
  rw [val_eq_length split, split]
  simp

theorem not_mem_past (split : List.finRange (m + 1) = past ++ p :: rest) : p ∉ past := by
  have nodup := List.nodup_finRange (m + 1)
  rw [split] at nodup
  intro again
  exact (List.nodup_append.mp nodup).2.2 p again p (by simp) rfl

theorem ne_server (split : List.finRange (m + 1) = past ++ p :: rest) (started : server ∈ past) :
    p ≠ server := by
  rintro rfl
  exact not_mem_past split started

end Iterations

/-- A process that has not joined, when the server has written to the given clients. -/
structure Outside (config : Config m) (sent : List (Fin (m + 1))) (i : Fin (m + 1)) : Prop where
  told : i ∈ sent → config.socket i = some (launch.answer i) ∧
    (config.code i = .read (afterRead launch i) ∨
      config.code i = afterRead launch i (launch.answer i))
  waiting : i ∉ sent → config.socket i = none ∧
    (config.code i = .read (afterRead launch i) ∨
      config.code i = .throws ∧ (config.code server).Done)

/-- The members are where `point` says, and everybody else is outside. -/
structure At (config : Config m) (members sent : List (Fin (m + 1)))
    (point : Fin (m + 1) → Code m) : Prop where
  member : ∀ i ∈ members, config.code i = point i
  outside : ∀ i ∉ members, Outside launch config sent i
  silent : ∀ i ∉ members, config.performed i = []
  same : SameCollectives config

namespace At

variable {launch} {config : Config m} {members sent : List (Fin (m + 1))}
  {point after : Fin (m + 1) → Code m}

/-- A collective of all members, in which others may join. -/
theorem perform (here : At launch config members sent point) (leads : server ∈ members)
    (busy : ¬(point server).Done) {comm : Comm m} (grows : members ⊆ comm)
    {collective : Collective m} {next : Fin (m + 1) → Code m}
    (reach : ∀ i ∈ comm, next i = after i) :
    At launch (config.perform collective comm next) comm sent after := by
  refine ⟨?_, ?_, ?_, ?_⟩
  · intro i inside
    simpa [Config.perform, inside] using reach i inside
  · intro i apart
    have before := here.outside i fun inside => apart (grows inside)
    have same_code : (config.perform collective comm next).code i = config.code i := by
      simp [Config.perform, apart]
    refine ⟨?_, ?_⟩
    · intro isSent
      rw [same_code]
      exact before.told isSent
    · intro notSent
      rw [same_code]
      rcases before.waiting notSent with ⟨empty, reading | ⟨_, finished⟩⟩
      · exact ⟨empty, Or.inl reading⟩
      · rw [here.member server leads] at finished
        exact absurd finished busy
  · intro i apart
    simpa [Config.perform, apart] using here.silent i fun inside => apart (grows inside)
  · intro i
    have leads : server ∈ comm := grows leads
    by_cases inside : i ∈ comm
    · simp only [Config.perform, if_pos inside, if_pos leads]
      obtain ⟨earlier, equal⟩ := here.same i
      exact ⟨earlier, by rw [← equal, List.append_assoc]⟩
    · have nothing := here.silent i fun member => inside (grows member)
      simp [Config.perform, inside, nothing]

/-- The server writes to the next client. -/
theorem write (here : At launch config members sent point) (leads : server ∈ members)
    (busy : ¬(point server).Done) {p : Fin (m + 1)} (fresh : p ∉ sent) (apart : p ∉ members)
    {next : Code m} (own : after server = next) (others : ∀ i ≠ server, after i = point i) :
    At launch { config.proceed server next with
        socket := Function.update config.socket p (some (launch.answer p)) }
      members (sent ++ [p]) after := by
  refine ⟨?_, ?_, here.silent, here.same⟩
  · intro i inside
    by_cases isServer : i = server
    · subst isServer
      simp [Config.proceed, own]
    · simpa [Config.proceed, isServer, others i isServer] using here.member i inside
  · intro i outer
    have notServer : i ≠ server := by
      rintro rfl
      exact outer leads
    have before := here.outside i outer
    have reads : ∀ q ∉ sent, q ∉ members → config.code q = .read (afterRead launch q) := by
      intro q notSent beyond
      rcases ((here.outside q beyond).waiting notSent).2 with reading | ⟨_, finished⟩
      · exact reading
      · rw [here.member server leads] at finished
        exact absurd finished busy
    by_cases told : i ∈ sent
    · have distinct : i ≠ p := by
        rintro rfl
        exact fresh told
      refine ⟨fun _ => ?_, fun no => absurd (List.mem_append_left _ told) no⟩
      simpa [Config.proceed, notServer, distinct] using before.told told
    · refine ⟨fun now => ?_, fun notNow => ?_⟩
      · obtain rfl : i = p := by simpa [told] using now
        exact ⟨by simp, Or.inl (by simpa [Config.proceed, notServer] using reads i told outer)⟩
      · have distinct : i ≠ p := by
          rintro rfl
          exact notNow (by simp)
        have empty := (before.waiting told).1
        exact ⟨by simpa [Config.proceed, distinct] using empty,
          Or.inl (by simpa [Config.proceed, notServer] using reads i told outer)⟩

/-- A client finds out what the server has written to it, or that there is no server. -/
theorem read (here : At launch config members sent point) (leads : server ∈ members)
    {i : Fin (m + 1)} (outer : i ∉ members) {bytes : Option (Fin (m + 1))}
    (found : config.socket i = some bytes ∨
      config.socket i = none ∧ bytes = none ∧ (config.code server).Done) :
    At launch (config.proceed i (afterRead launch i bytes)) members sent point := by
  have notServer : i ≠ server := by
    rintro rfl
    exact outer leads
  refine ⟨?_, ?_, here.silent, here.same⟩
  · intro j inside
    have distinct : j ≠ i := by
      rintro rfl
      exact outer inside
    simpa [Config.proceed, distinct] using here.member j inside
  · intro j apart
    have before := here.outside j apart
    by_cases distinct : j = i
    · subst distinct
      refine ⟨fun told => ?_, fun notTold => ?_⟩
      · have written := (before.told told).1
        have bytes_eq : bytes = launch.answer j := by
          rcases found with found | ⟨empty, _⟩
          · exact Option.some.inj (found.symm.trans written)
          · rw [written] at empty
            cases empty
        exact ⟨written, Or.inr (by simp [Config.proceed, bytes_eq])⟩
      · have empty := (before.waiting notTold).1
        rcases found with found | ⟨_, rfl, finished⟩
        · rw [empty] at found
          cases found
        · refine ⟨empty, Or.inr ⟨by simp [Config.proceed, afterRead], ?_⟩⟩
          simpa [Config.proceed, notServer.symm] using finished
    · refine ⟨fun told => ?_, fun notTold => ?_⟩
      · simpa [Config.proceed, distinct] using before.told told
      · simpa [Config.proceed, distinct, notServer.symm] using before.waiting notTold

end At

/-- With assertions, nobody goes on unless all of these processes were kept. -/
def Checked (past : List (Fin (m + 1))) : Prop :=
  launch.debug → ∀ q ∈ past, launch.keeps q

/-- The stages of a hook, between the iterations of `past` and those of `rest`. -/
inductive Stage (config : Config m) : Prop
  | head {past rest : List (Fin (m + 1))} (split : List.finRange (m + 1) = past ++ rest)
      (started : server ∈ past) (passed : Checked launch past.dropLast)
      (here : At launch config (launch.joined past) past fun i =>
        rounds launch i rest (launch.joined past))
  | reducing {past rest : List (Fin (m + 1))} {p : Fin (m + 1)}
      (split : List.finRange (m + 1) = past ++ p :: rest) (started : server ∈ past)
      (passed : Checked launch past)
      (here : At launch config (launch.joined past) (past ++ [p]) fun i =>
        .allreduce (launch.joined past) (if i = server then launch.handsOut p else true)
          (afterReduce launch i p rest (launch.joined past)))
  | accepting {past rest : List (Fin (m + 1))} {p : Fin (m + 1)}
      (split : List.finRange (m + 1) = past ++ p :: rest) (started : server ∈ past)
      (passed : Checked launch past) (kept : launch.handsOut p)
      (here : At launch config (launch.joined past) (past ++ [p]) fun i =>
        .accept (launch.joined past) fun newcomm =>
          .merge newcomm false (afterMerge launch i p rest))
  | merging {past rest : List (Fin (m + 1))} {p : Fin (m + 1)}
      (split : List.finRange (m + 1) = past ++ p :: rest) (started : server ∈ past)
      (passed : Checked launch past) (kept : launch.handsOut p)
      (here : At launch config (launch.joined past ++ [p]) (past ++ [p]) fun i =>
        if i = p then
          .merge ⟨[p], launch.joined past⟩ true fun comm => rounds launch p (iterations p) comm
        else .merge ⟨launch.joined past, [p]⟩ false (afterMerge launch i p rest))
  | settled (passed : Checked launch (List.finRange (m + 1)).dropLast)
      (here : At launch config (launch.joined (List.finRange (m + 1))) (List.finRange (m + 1))
        fun _ => .returns (sorted launch.pid (launch.joined (List.finRange (m + 1)))))

variable {launch}

theorem rounds_server {p : Fin (m + 1)} {rest : List (Fin (m + 1))} {comm : Comm m} :
    rounds launch server (p :: rest) comm =
      if launch.debug && comm.length != p.val then .aborts
      else .write p (launch.answer p)
        (.allreduce comm (launch.handsOut p) (afterReduce launch server p rest comm)) := by
  rw [rounds_cons, if_pos launch.pid_server]

theorem rounds_joined {p self : Fin (m + 1)} {rest : List (Fin (m + 1))} {comm : Comm m}
    (client : self ≠ server) :
    rounds launch self (p :: rest) comm =
      if launch.debug && comm.length != p.val then .aborts
      else .allreduce comm true (afterReduce launch self p rest comm) := by
  have pid : (launch.pid self).val ≠ 0 := fun zero => client (launch.pid_eq_zero.mp zero)
  rw [rounds_cons, if_neg pid]

theorem check_eq {past rest : List (Fin (m + 1))} {p : Fin (m + 1)}
    (split : List.finRange (m + 1) = past ++ p :: rest) :
    (launch.debug && (launch.joined past).length != p.val) = true ↔ ¬Checked launch past := by
  have size : (launch.joined past).length = past.length ↔ ∀ q ∈ past, launch.keeps q :=
    Launch.length_joined
  rw [val_eq_length split]
  cases debug : launch.debug with
  | false => simp [Checked, debug]
  | true => simp [Checked, debug, size]

/-- The communicator whose processes must all make the call that a process is in. -/
def Code.lead : Code m → Option (Comm m)
  | .allreduce comm _ _ => some comm
  | .accept comm _ => some comm
  | .merge newcomm high _ => some (if high then newcomm.remoteGroup else newcomm.localGroup)
  | .split comm _ _ => some comm
  | _ => none

theorem Outside.lead {config : Config m} {sent : List (Fin (m + 1))} {i : Fin (m + 1)}
    (outside : Outside launch config sent i) : (config.code i).lead = none := by
  by_cases told : i ∈ sent
  · rcases (outside.told told).2 with reading | reached
    · simp [reading, Code.lead]
    · rw [reached]
      cases launch.answer i <;> rfl
  · rcases (outside.waiting told).2 with reading | ⟨thrown, _⟩
    · simp [reading, Code.lead]
    · simp [thrown, Code.lead]

theorem lead_rounds {self : Fin (m + 1)} {rest : List (Fin (m + 1))} {comm : Comm m} :
    ∀ c ∈ (rounds launch self rest comm).lead, c = comm := by
  cases rest with
  | nil => simp [rounds, Code.lead]
  | cons p rest =>
      rw [rounds_cons]
      split
      · simp [Code.lead]
      · split <;> simp [Code.lead]

namespace Stage

variable {config : Config m}

/-- The server takes part in every collective. -/
theorem server_mem_lead (stage : Stage launch config) {i : Fin (m + 1)} {comm : Comm m}
    (lead : (config.code i).lead = some comm) : server ∈ comm := by
  have inside : ∀ {members sent point}, At launch config members sent point →
      i ∈ members ∧ (point i).lead = some comm := by
    intro members sent point here
    by_cases member : i ∈ members
    · exact ⟨member, by rw [← here.member i member, lead]⟩
    · rw [(here.outside i member).lead] at lead
      cases lead
  cases stage with
  | head split started passed here =>
      obtain rfl := lead_rounds comm (inside here).2
      exact Launch.server_joined started
  | reducing split started passed here =>
      obtain rfl : _ = comm := by simpa [Code.lead] using (inside here).2
      exact Launch.server_joined started
  | accepting split started passed kept here =>
      obtain rfl : _ = comm := by simpa [Code.lead] using (inside here).2
      exact Launch.server_joined started
  | merging split started passed kept here =>
      have lead := (inside here).2
      have member : server ∈ launch.joined _ := Launch.server_joined started
      split at lead
      all_goals
        obtain rfl : _ = comm := by simpa [Code.lead] using lead
        exact member
  | settled passed here =>
      have lead := (inside here).2
      cases lead

section Advances

variable {past rest : List (Fin (m + 1))} {p : Fin (m + 1)}

/-- The configuration after the server has written to client `p`. -/
def written (launch : Launch m) (config : Config m) (past rest : List (Fin (m + 1)))
    (p : Fin (m + 1)) : Config m :=
  { config.proceed server (.allreduce (launch.joined past) (launch.handsOut p)
        (afterReduce launch server p rest (launch.joined past))) with
    socket := Function.update config.socket p (some (launch.answer p)) }

theorem rounds_of_checked (split : List.finRange (m + 1) = past ++ p :: rest)
    (passed : Checked launch past) :
    rounds launch server (p :: rest) (launch.joined past) =
      .write p (launch.answer p)
        (.allreduce (launch.joined past) (launch.handsOut p)
          (afterReduce launch server p rest (launch.joined past))) := by
  have fine := mt (check_eq split).mp (not_not_intro passed)
  rw [rounds_server, if_neg fine]

theorem after_write (split : List.finRange (m + 1) = past ++ p :: rest) (started : server ∈ past)
    (passed : Checked launch past)
    (here : At launch config (launch.joined past) past fun i =>
      rounds launch i (p :: rest) (launch.joined past)) :
    At launch (written launch config past rest p) (launch.joined past) (past ++ [p]) fun i =>
      .allreduce (launch.joined past) (if i = server then launch.handsOut p else true)
        (afterReduce launch i p rest (launch.joined past)) := by
  have fine := mt (check_eq split).mp (not_not_intro passed)
  have call := rounds_of_checked split passed
  have unsent := not_mem_past split
  apply here.write (Launch.server_joined started)
  · intro finished
    rw [call] at finished
    cases finished
  · exact unsent
  · exact fun member => unsent (Launch.mem_joined.mp member).1
  · simp
  · intro i client
    simp only [if_neg client]
    rw [rounds_joined client, if_neg fine]

theorem keeps_client (split : List.finRange (m + 1) = past ++ p :: rest) (started : server ∈ past) :
    launch.keeps p = launch.handsOut p := by
  simp [Launch.keeps, ne_server split started]

theorem split_next (split : List.finRange (m + 1) = past ++ p :: rest) :
    List.finRange (m + 1) = (past ++ [p]) ++ rest := by
  rw [split, List.append_assoc, List.singleton_append]

theorem after_allreduce (started : server ∈ past)
    (here : At launch config (launch.joined past) (past ++ [p]) fun i =>
      .allreduce (launch.joined past) (if i = server then launch.handsOut p else true)
        (afterReduce launch i p rest (launch.joined past)))
    (collective : Collective m) {next : Fin (m + 1) → Code m}
    (agree : ∀ i ∈ launch.joined past,
      next i = afterReduce launch i p rest (launch.joined past) (launch.handsOut p)) :
    At launch (config.perform collective (launch.joined past) next) (launch.joined past)
      (past ++ [p]) fun i =>
        afterReduce launch i p rest (launch.joined past) (launch.handsOut p) := by
  apply here.perform (Launch.server_joined started)
  · intro finished
    cases finished
  · exact List.Subset.refl _
  · exact agree

/-- The next iteration begins after a failure, and otherwise the client is accepted. -/
theorem head_of_lost (split : List.finRange (m + 1) = past ++ p :: rest) (started : server ∈ past)
    (lost : launch.handsOut p = false)
    (here : At launch config (launch.joined past) (past ++ [p]) fun i =>
      afterReduce launch i p rest (launch.joined past) (launch.handsOut p)) :
    At launch config (launch.joined (past ++ [p])) (past ++ [p]) fun i =>
      rounds launch i rest (launch.joined (past ++ [p])) := by
  have notKept : launch.keeps p = false := by rw [keeps_client split started, lost]
  rw [Launch.joined_append_of_not_keeps notKept]
  simpa only [lost, afterReduce, Bool.false_eq_true, if_false] using here

theorem after_accept (started : server ∈ past)
    (here : At launch config (launch.joined past) (past ++ [p]) fun i =>
      .accept (launch.joined past) fun newcomm =>
        .merge newcomm false (afterMerge launch i p rest))
    (collective : Collective m) {next : Fin (m + 1) → Code m}
    (agree : ∀ i ∈ launch.joined past,
      next i = .merge ⟨launch.joined past, [p]⟩ false (afterMerge launch i p rest))
    (joins : next p =
      .merge ⟨[p], launch.joined past⟩ true fun comm => rounds launch p (iterations p) comm) :
    At launch (config.perform collective (launch.joined past ++ [p]) next)
      (launch.joined past ++ [p]) (past ++ [p]) fun i =>
        if i = p then
          .merge ⟨[p], launch.joined past⟩ true fun comm => rounds launch p (iterations p) comm
        else .merge ⟨launch.joined past, [p]⟩ false (afterMerge launch i p rest) := by
  apply here.perform (Launch.server_joined started)
  · intro finished
    cases finished
  · exact List.subset_append_left _ _
  · intro i member
    by_cases client : i = p
    · subst client
      simpa using joins
    · simp only [if_neg client]
      refine agree i ?_
      simpa [client] using member

theorem after_merge (split : List.finRange (m + 1) = past ++ p :: rest) (started : server ∈ past)
    (passed : Checked launch past) (kept : launch.handsOut p)
    (here : At launch config (launch.joined past ++ [p]) (past ++ [p]) fun i =>
      if i = p then
        .merge ⟨[p], launch.joined past⟩ true fun comm => rounds launch p (iterations p) comm
      else .merge ⟨launch.joined past, [p]⟩ false (afterMerge launch i p rest))
    (collective : Collective m) {next : Fin (m + 1) → Code m}
    (agree : ∀ i ∈ launch.joined past,
      next i = afterMerge launch i p rest (launch.joined past ++ [p]))
    (joins : next p = rounds launch p (iterations p) (launch.joined past ++ [p])) :
    At launch (config.perform collective (launch.joined past ++ [p]) next)
      (launch.joined (past ++ [p])) (past ++ [p]) fun i =>
        rounds launch i rest (launch.joined (past ++ [p])) := by
  have kept' : launch.keeps p := by rw [keeps_client split started, kept]
  have grows : launch.joined (past ++ [p]) = launch.joined past ++ [p] :=
    Launch.joined_append_of_keeps kept'
  -- the second assertion cannot fail where the first one has not
  have fine : (launch.debug && (launch.joined past ++ [p]).length != p.val + 1) = false := by
    have size : (launch.joined past).length = past.length ↔ ∀ q ∈ past, launch.keeps q :=
      Launch.length_joined
    rw [val_eq_length split]
    cases debug : launch.debug with
    | false => simp
    | true => simp [size.mpr (passed debug)]
  rw [grows]
  apply here.perform (List.mem_append_left _ (Launch.server_joined started))
  · intro finished
    simp only [if_neg (ne_server split started).symm] at finished
    cases finished
  · exact List.Subset.refl _
  · intro i member
    by_cases client : i = p
    · subst client
      rw [joins, iterations_eq split]
    · rw [agree i (by simpa [client] using member), afterMerge, fine]
      rfl

theorem after_split (started : server ∈ past)
    (here : At launch config (launch.joined past) past fun i =>
      rounds launch i [] (launch.joined past))
    (collective : Collective m) {next : Fin (m + 1) → Code m}
    (agree : ∀ i ∈ launch.joined past,
      next i = .returns (sorted launch.pid (launch.joined past))) :
    At launch (config.perform collective (launch.joined past) next) (launch.joined past) past
      fun _ => .returns (sorted launch.pid (launch.joined past)) := by
  apply here.perform (Launch.server_joined started)
  · intro finished
    cases finished
  · exact List.Subset.refl _
  · exact agree

end Advances

theorem sorted_congr {key key' : Fin (m + 1) → Fin (m + 1)} {comm : Comm m}
    (agree : ∀ i ∈ comm, key i = key' i) : sorted key comm = sorted key' comm := by
  unfold sorted
  rw [← List.map_id (comm.mergeSort _), List.map_mergeSort, List.map_id]
  intro a memberA b memberB
  simp [agree a memberA, agree b memberB]

/-- The server's calls at the head of an iteration. -/
theorem rounds_server_cases {rest : List (Fin (m + 1))} {comm : Comm m} :
    rest = [] ∧ rounds launch server rest comm = .split comm (launch.pid server) .returns ∨
      rounds launch server rest comm = .aborts ∨
      ∃ p bytes next, rounds launch server rest comm = .write p bytes next := by
  cases rest with
  | nil => exact Or.inl ⟨rfl, rfl⟩
  | cons p rest =>
      right
      rw [rounds_server]
      split
      · exact Or.inl rfl
      · exact Or.inr ⟨_, _, _, rfl⟩

theorem not_read_rounds {self : Fin (m + 1)} {rest : List (Fin (m + 1))} {comm : Comm m}
    {next : Option (Fin (m + 1)) → Code m} : rounds launch self rest comm ≠ .read next := by
  cases rest with
  | nil => simp [rounds]
  | cons p rest =>
      rw [rounds_cons]
      split
      · simp
      · split <;> simp

/-- A process that reads is outside, and stays there. -/
theorem after_read (stage : Stage launch config) {i : Fin (m + 1)}
    {bytes : Option (Fin (m + 1))} {next : Option (Fin (m + 1)) → Code m}
    (call : config.code i = .read next)
    (found : config.socket i = some bytes ∨
      config.socket i = none ∧ bytes = none ∧ (config.code server).Done) :
    Stage launch (config.proceed i (next bytes)) := by
  have outer : ∀ {members sent point}, At launch config members sent point →
      (∀ i next, point i ≠ .read next) → i ∉ members := by
    intro members sent point here never member
    exact never i next ((here.member i member).symm.trans call)
  have moved : ∀ {members sent point}, At launch config members sent point → i ∉ members →
      server ∈ members → At launch (config.proceed i (next bytes)) members sent point := by
    intro members sent point here apart leads
    have reads : next = afterRead launch i := by
      have outside := here.outside i apart
      have code : config.code i = .read (afterRead launch i) ∨
          ∀ f, config.code i ≠ .read f := by
        by_cases told : i ∈ sent
        · rcases (outside.told told).2 with reading | reached
          · exact Or.inl reading
          · exact Or.inr fun f => by rw [reached]; exact afterRead_not_read launch
        · rcases (outside.waiting told).2 with reading | ⟨thrown, _⟩
          · exact Or.inl reading
          · exact Or.inr fun f => by rw [thrown]; simp
      rcases code with reading | never
      · exact Code.read.inj (call.symm.trans reading)
      · exact absurd call (never next)
    rw [reads]
    exact here.read leads apart found
  cases stage with
  | head split started passed here =>
      have apart := outer here fun _ _ => not_read_rounds
      exact .head split started passed (moved here apart (Launch.server_joined started))
  | reducing split started passed here =>
      have apart := outer here fun _ _ => by simp
      exact .reducing split started passed (moved here apart (Launch.server_joined started))
  | accepting split started passed kept here =>
      have apart := outer here fun _ _ => by simp
      exact .accepting split started passed kept
        (moved here apart (Launch.server_joined started))
  | merging split started passed kept here =>
      have apart := outer here fun i _ => by split <;> simp
      exact .merging split started passed kept
        (moved here apart (List.mem_append_left _ (Launch.server_joined started)))
  | settled passed here =>
      have apart := outer here fun _ _ => by simp
      exact .settled passed (moved here apart (Launch.server_joined (List.mem_finRange server)))

/-- Only the server writes, and it writes to the next client. -/
theorem write_head (stage : Stage launch config) {i p : Fin (m + 1)}
    {bytes : Option (Fin (m + 1))} {next : Code m} (call : config.code i = .write p bytes next) :
    i = server ∧ ∃ past rest, List.finRange (m + 1) = past ++ p :: rest ∧ server ∈ past ∧
      Checked launch past ∧ bytes = launch.answer p ∧
      next = .allreduce (launch.joined past) (launch.handsOut p)
        (afterReduce launch server p rest (launch.joined past)) ∧
      At launch config (launch.joined past) past fun i =>
        rounds launch i (p :: rest) (launch.joined past) := by
  have inside : ∀ {members sent point}, At launch config members sent point →
      point i = .write p bytes next := by
    intro members sent point here
    by_cases member : i ∈ members
    · exact (here.member i member).symm.trans call
    · have outside := here.outside i member
      by_cases told : i ∈ sent
      · rcases (outside.told told).2 with reading | reached
        · simp [reading] at call
        · rw [reached] at call
          cases answered : launch.answer i <;> simp [answered, afterRead] at call
      · rcases (outside.waiting told).2 with reading | ⟨thrown, _⟩
        · simp [reading] at call
        · simp [thrown] at call
  cases stage with
  | @head past rest split started passed here =>
      have point := inside here
      cases rest with
      | nil => simp [rounds] at point
      | cons q rest =>
          by_cases checked : Checked launch past
          · have fine := mt (check_eq split).mp (not_not_intro checked)
            by_cases leads : i = server
            · subst leads
              rw [rounds_of_checked split checked] at point
              injection point with client told continues
              subst client
              exact ⟨rfl, past, rest, split, started, checked, told.symm, continues.symm, here⟩
            · rw [rounds_joined leads, if_neg fine] at point
              cases point
          · rw [rounds_cons, if_pos ((check_eq split).mpr checked)] at point
            cases point
  | reducing split started passed here => cases inside here
  | accepting split started passed kept here => cases inside here
  | merging split started passed kept here =>
      have point := inside here
      split at point <;> cases point
  | settled passed here => cases inside here

/-- A client that calls `MPI_Comm_connect` is alone in its communicator and has been told to. -/
theorem connect_outside {members sent : List (Fin (m + 1))} {point : Fin (m + 1) → Code m}
    (here : At launch config members sent point) {i : Fin (m + 1)}
    (never : ∀ comm next, point i ≠ .connect comm next) {comm : Comm m}
    {next : Intercomm m → Code m} (call : config.code i = .connect comm next) :
    i ∉ members ∧ i ∈ sent ∧ launch.handsOut i ∧ comm = [i] ∧
      next = fun newcomm =>
        .merge newcomm true fun comm => rounds launch i (iterations i) comm := by
  have apart : i ∉ members := fun member =>
    never comm next ((here.member i member).symm.trans call)
  have outside := here.outside i apart
  by_cases told : i ∈ sent
  · rcases (outside.told told).2 with reading | reached
    · simp [reading] at call
    · cases handed : launch.handsOut i with
      | false => simp [reached, Launch.answer, handed, afterRead] at call
      | true =>
          simp only [reached, Launch.answer, handed, if_true, afterRead] at call
          injection call with alone continues
          exact ⟨apart, told, rfl, alone.symm, continues.symm⟩
  · rcases (outside.waiting told).2 with reading | ⟨thrown, _⟩
    · simp [reading] at call
    · simp [thrown] at call

/-- The stage is given by the call of the server: every other stage has another one. -/
theorem allreduce_reducing (stage : Stage launch config) {comm : Comm m} {success : Bool}
    {next : Bool → Code m} (call : config.code server = .allreduce comm success next) :
    ∃ past p rest, List.finRange (m + 1) = past ++ p :: rest ∧ server ∈ past ∧
      Checked launch past ∧
      At launch config (launch.joined past) (past ++ [p]) fun i =>
        .allreduce (launch.joined past) (if i = server then launch.handsOut p else true)
          (afterReduce launch i p rest (launch.joined past)) := by
  cases stage with
  | head split started passed here =>
      rw [here.member server (Launch.server_joined started)] at call
      rcases rounds_server_cases with ⟨_, shape⟩ | shape | ⟨_, _, _, shape⟩ <;>
        rw [shape] at call <;> cases call
  | @reducing past rest p split started passed here =>
      exact ⟨past, p, rest, split, started, passed, here⟩
  | accepting split started passed kept here =>
      rw [here.member server (Launch.server_joined started)] at call
      cases call
  | merging split started passed kept here =>
      rw [here.member server (List.mem_append_left _ (Launch.server_joined started))] at call
      split at call <;> cases call
  | settled passed here =>
      rw [here.member server (Launch.server_joined (List.mem_finRange server))] at call
      cases call

theorem accept_accepting (stage : Stage launch config) {comm : Comm m}
    {next : Intercomm m → Code m} (call : config.code server = .accept comm next) :
    ∃ past p rest, List.finRange (m + 1) = past ++ p :: rest ∧ server ∈ past ∧
      Checked launch past ∧ launch.handsOut p ∧
      At launch config (launch.joined past) (past ++ [p]) fun i =>
        .accept (launch.joined past) fun newcomm =>
          .merge newcomm false (afterMerge launch i p rest) := by
  cases stage with
  | head split started passed here =>
      rw [here.member server (Launch.server_joined started)] at call
      rcases rounds_server_cases with ⟨_, shape⟩ | shape | ⟨_, _, _, shape⟩ <;>
        rw [shape] at call <;> cases call
  | reducing split started passed here =>
      rw [here.member server (Launch.server_joined started)] at call
      cases call
  | @accepting past rest p split started passed kept here =>
      exact ⟨past, p, rest, split, started, passed, kept, here⟩
  | merging split started passed kept here =>
      rw [here.member server (List.mem_append_left _ (Launch.server_joined started))] at call
      split at call <;> cases call
  | settled passed here =>
      rw [here.member server (Launch.server_joined (List.mem_finRange server))] at call
      cases call

theorem merge_merging (stage : Stage launch config) {newcomm : Intercomm m} {high : Bool}
    {next : Comm m → Code m} (call : config.code server = .merge newcomm high next) :
    ∃ past p rest, List.finRange (m + 1) = past ++ p :: rest ∧ server ∈ past ∧
      Checked launch past ∧ launch.handsOut p ∧
      newcomm = ⟨launch.joined past, [p]⟩ ∧ high = false ∧
      At launch config (launch.joined past ++ [p]) (past ++ [p]) fun i =>
        if i = p then
          .merge ⟨[p], launch.joined past⟩ true fun comm => rounds launch p (iterations p) comm
        else .merge ⟨launch.joined past, [p]⟩ false (afterMerge launch i p rest) := by
  cases stage with
  | head split started passed here =>
      rw [here.member server (Launch.server_joined started)] at call
      rcases rounds_server_cases with ⟨_, shape⟩ | shape | ⟨_, _, _, shape⟩ <;>
        rw [shape] at call <;> cases call
  | reducing split started passed here =>
      rw [here.member server (Launch.server_joined started)] at call
      cases call
  | accepting split started passed kept here =>
      rw [here.member server (Launch.server_joined started)] at call
      cases call
  | @merging past rest p split started passed kept here =>
      rw [here.member server (List.mem_append_left _ (Launch.server_joined started)),
        if_neg (ne_server split started).symm] at call
      injection call with groups flag _
      exact ⟨past, p, rest, split, started, passed, kept, groups.symm, flag.symm, here⟩
  | settled passed here =>
      rw [here.member server (Launch.server_joined (List.mem_finRange server))] at call
      cases call

theorem split_head (stage : Stage launch config) {comm : Comm m} {key : Fin (m + 1)}
    {next : Comm m → Code m} (call : config.code server = .split comm key next) :
    ∃ past, List.finRange (m + 1) = past ∧ server ∈ past ∧ Checked launch past.dropLast ∧
      At launch config (launch.joined past) past fun i =>
        rounds launch i [] (launch.joined past) := by
  cases stage with
  | @head past rest split started passed here =>
      rw [here.member server (Launch.server_joined started)] at call
      cases rest with
      | nil => exact ⟨past, by simpa using split, started, passed, here⟩
      | cons p rest =>
          rw [rounds_server] at call
          split at call <;> cases call
  | reducing split started passed here =>
      rw [here.member server (Launch.server_joined started)] at call
      cases call
  | accepting split started passed kept here =>
      rw [here.member server (Launch.server_joined started)] at call
      cases call
  | merging split started passed kept here =>
      rw [here.member server (List.mem_append_left _ (Launch.server_joined started))] at call
      split at call <;> cases call
  | settled passed here =>
      rw [here.member server (Launch.server_joined (List.mem_finRange server))] at call
      cases call

/-- What the processes vote on a client: only the server can have seen a failure. -/
theorem all_success {past : List (Fin (m + 1))} {p : Fin (m + 1)} (started : server ∈ past)
    {success : Fin (m + 1) → Bool}
    (votes : ∀ i ∈ launch.joined past, success i = if i = server then launch.handsOut p else true) :
    (launch.joined past).all success = launch.handsOut p := by
  have leads := votes server (Launch.server_joined started)
  cases handed : launch.handsOut p with
  | false =>
      refine List.all_eq_false.mpr ⟨server, Launch.server_joined started, ?_⟩
      simp [leads, handed]
  | true =>
      refine List.all_eq_true.mpr fun i member => ?_
      simp [votes i member, handed]

/-- A group that makes a collective call has the server in it. -/
theorem server_mem (stage : Stage launch config) {comm : Comm m} (some_member : comm ≠ [])
    (leads : ∀ i ∈ comm, (config.code i).lead = some comm) : server ∈ comm := by
  obtain ⟨i, member⟩ := List.exists_mem_of_ne_nil comm some_member
  exact stage.server_mem_lead (leads i member)

/-- After the votes the client is accepted, or the next iteration begins. -/
theorem allreduce (stage : Stage launch config) {comm : Comm m} {success : Fin (m + 1) → Bool}
    {next : Fin (m + 1) → Bool → Code m} (leads : server ∈ comm)
    (calls : ∀ i ∈ comm, config.code i = .allreduce comm (success i) (next i)) :
    Stage launch (config.perform (.allreduce comm) comm fun i => next i (comm.all success)) := by
  rcases stage.allreduce_reducing (calls server leads) with
    ⟨past, p, rest, split, started, passed, here⟩
  have first := (here.member server (Launch.server_joined started)).symm.trans (calls server leads)
  injection first with same _ _
  subst same
  have each : ∀ i ∈ launch.joined past,
      success i = (if i = server then launch.handsOut p else true) ∧
        next i = afterReduce launch i p rest (launch.joined past) := by
    intro i member
    have call := (here.member i member).symm.trans (calls i member)
    injection call with _ vote continues
    exact ⟨vote.symm, continues.symm⟩
  have agree : ∀ i ∈ launch.joined past, next i ((launch.joined past).all success) =
      afterReduce launch i p rest (launch.joined past) (launch.handsOut p) := by
    intro i member
    rw [(each i member).2, all_success started fun i member => (each i member).1]
  cases handed : launch.handsOut p with
  | false =>
      exact .head (split_next split) (by simp [started]) (by simpa using passed)
        (head_of_lost split started handed (after_allreduce started here _ agree))
  | true =>
      have reduced := after_allreduce started here (.allreduce (launch.joined past)) agree
      simp only [handed, afterReduce, if_true] at reduced
      exact .accepting split started passed handed reduced

/-- The only client that can connect is the one that the server has written to. -/
theorem accept (stage : Stage launch config) {comm client : Comm m}
    {next : Fin (m + 1) → Intercomm m → Code m} (leads : server ∈ comm)
    (some_client : client ≠ [])
    (accepts : ∀ i ∈ comm, config.code i = .accept comm (next i))
    (connects : ∀ i ∈ client, config.code i = .connect client (next i)) :
    Stage launch (config.perform (.accept comm client) (comm ++ client) fun i =>
      next i (if i ∈ comm then ⟨comm, client⟩ else ⟨client, comm⟩)) := by
  rcases stage.accept_accepting (accepts server leads) with
    ⟨past, p, rest, split, started, passed, kept, here⟩
  have first :=
    (here.member server (Launch.server_joined started)).symm.trans (accepts server leads)
  injection first with same _
  subst same
  obtain ⟨j, joins⟩ := List.exists_mem_of_ne_nil client some_client
  rcases connect_outside here (fun _ _ => by simp) (connects j joins) with
    ⟨apart, told, handed, rfl, continues⟩
  obtain rfl : j = p := by
    rcases List.mem_append.mp told with earlier | now
    · exact absurd (Launch.mem_joined.mpr ⟨earlier, by simp [Launch.keeps, handed]⟩) apart
    · simpa using now
  refine .merging split started passed kept
    (after_accept started here _ (fun i member => ?_) ?_)
  · have call := (here.member i member).symm.trans (accepts i member)
    injection call with _ accepted
    simp only [if_pos member, ← accepted]
  · simp only [if_neg apart, continues]

/-- The client is a member of the next iteration's communicator. -/
theorem merge (stage : Stage launch config) {low high : Comm m}
    {next : Fin (m + 1) → Comm m → Code m} (leads : server ∈ low)
    (lows : ∀ i ∈ low, config.code i = .merge ⟨low, high⟩ false (next i))
    (highs : ∀ i ∈ high, config.code i = .merge ⟨high, low⟩ true (next i)) :
    Stage launch (config.perform (.merge low high) (low ++ high) fun i =>
      next i (low ++ high)) := by
  rcases stage.merge_merging (lows server leads) with
    ⟨past, p, rest, split, started, passed, kept, groups, _, here⟩
  injection groups with lowGroup highGroup
  subst lowGroup highGroup
  refine .head (split_next split) (by simp [started]) (by simpa using passed)
    (after_merge split started passed kept here _ (fun i member => ?_) ?_)
  · have apart : i ≠ p := by
      rintro rfl
      exact not_mem_past split (Launch.mem_joined.mp member).1
    have call := (here.member i (List.mem_append_left _ member)).symm.trans (lows i member)
    rw [if_neg apart] at call
    injection call with _ _ continues
    rw [← continues]
  · have call := (here.member p (by simp)).symm.trans (highs p (by simp))
    rw [if_pos rfl] at call
    injection call with _ _ continues
    rw [← continues]

/-- The last call settles the ranks. -/
theorem split (stage : Stage launch config) {comm : Comm m} {key : Fin (m + 1) → Fin (m + 1)}
    {next : Fin (m + 1) → Comm m → Code m} (leads : server ∈ comm)
    (calls : ∀ i ∈ comm, config.code i = .split comm (key i) (next i)) :
    Stage launch (config.perform (.split comm) comm fun i => next i (sorted key comm)) := by
  rcases stage.split_head (calls server leads) with ⟨past, split, started, passed, here⟩
  have first := (here.member server (Launch.server_joined started)).symm.trans (calls server leads)
  injection first with same _ _
  subst same
  have each : ∀ i ∈ launch.joined past, key i = launch.pid i ∧ next i = .returns := by
    intro i member
    have call := (here.member i member).symm.trans (calls i member)
    injection call with _ keys continues
    exact ⟨keys.symm, continues.symm⟩
  subst split
  refine .settled passed (after_split started here _ fun i member => ?_)
  rw [(each i member).2, sorted_congr fun i member => (each i member).1]

theorem step (stage : Stage launch config) {after : Config m} (step : Step config after) :
    Stage launch after := by
  cases step with
  | @write i p bytes next call =>
      rcases stage.write_head call with
        ⟨rfl, past, rest, split, started, checked, rfl, rfl, here⟩
      exact .reducing split started checked (after_write split started checked here)
  | read call delivered => exact stage.after_read call (Or.inl delivered)
  | lost call silent closed => exact stage.after_read call (Or.inr ⟨silent, rfl, closed⟩)
  | allreduce some_member calls =>
      have leads := stage.server_mem some_member fun i member => by rw [calls i member]; rfl
      exact stage.allreduce leads calls
  | accept some_member some_client accepts connects =>
      have leads := stage.server_mem some_member fun i member => by rw [accepts i member]; rfl
      exact stage.accept leads some_client accepts connects
  | merge some_low some_high lows highs =>
      have leads := stage.server_mem some_low fun i member => by rw [lows i member]; rfl
      exact stage.merge leads lows highs
  | split some_member calls =>
      have leads := stage.server_mem some_member fun i member => by rw [calls i member]; rfl
      exact stage.split leads calls

end Stage

end DynamicHook

end Talpf
