import Talpf.AllToAll.Single
import Mathlib.Algebra.BigOperators.Group.Finset.Basic
import Mathlib.Algebra.Order.BigOperators.Group.Finset
import Mathlib.Data.Fintype.BigOperators

/-!
# An exchange can always be completed

From every state of a single call with room for everything, some order of steps
lets all processes return.  Chunks in flight can be received, messages whose
chunks have been received can be continued or removed, and a process without
messages can enter the barrier.
-/

namespace Talpf

namespace AllToAll

universe u

variable {n : ℕ} {Byte : Type u} {plan : Plan n Byte} {state : State n Byte}

open Channels

/-- Some order of steps leads from one state to another. -/
def Leads (plan : Plan n Byte) (before after : State n Byte) : Prop :=
  Transition.Reachable (Step plan) (fun _ _ => True) before after

namespace Leads

variable {before middle after : State n Byte}

theorem refl : Leads plan state state := Relation.ReflTransGen.refl

theorem trans (first : Leads plan before middle) (second : Leads plan middle after) :
    Leads plan before after :=
  Relation.ReflTransGen.trans first second

theorem step {action : Action n Byte} (step : Step plan before action after) :
    Leads plan before after :=
  Relation.ReflTransGen.single ⟨action, trivial, step⟩

theorem reachable (leads : Leads plan before after)
    (run : Reachable plan (fun _ _ => True) before) : Reachable plan (fun _ _ => True) after :=
  Relation.ReflTransGen.trans run leads

end Leads

/-- How far a process is from the end of its call. -/
def Local.stage (process : Local n Byte) : ℕ :=
  if process.phase = .outside then if process.results.isEmpty then 3 else 0
  else if process.barrierActive then 1 else 2

theorem Local.stage_inside {process : Local n Byte} (inside : process.phase ≠ .outside) :
    process.stage = if process.barrierActive then 1 else 2 := if_neg inside

/-- All chunks of the first call. -/
def Plan.all (plan : Plan n Byte) : List (Chunk n Byte) :=
  (List.finRange n).flatMap fun dst => plan.incoming 0 dst

def potential (plan : Plan n Byte) (state : State n Byte) : ℕ :=
  2 * (plan.all.length - state.posted.length) + state.inFlight.length +
    ∑ p, (state.process p).stage

theorem length_posted_le (single : plan.calls = 1)
    (run : Reachable plan (fun _ _ => True) state) :
    state.posted.length ≤ plan.all.length := by
  have sound := sound_of_reachable run
  apply List.Subperm.length_le
  apply subperm_of_on Chunk.target
  rintro ⟨call, dst⟩
  by_cases first : call = 0
  · subst first
    have labelled : ∀ dst ∈ List.finRange n, ∀ chunk ∈ plan.incoming 0 dst,
        chunk.target = (0, dst) := by
      intro dst _ chunk member
      rcases List.mem_flatMap.mp member with ⟨message, addressed, piece⟩
      rcases Plan.message_labelled chunk piece with ⟨key, send, found, goal⟩
      rcases Plan.mem_addressed.mp addressed with ⟨send', found', goal'⟩
      obtain rfl : send = send' := Option.some.inj (found.symm.trans found')
      simp only [Chunk.message, Prod.mk.injEq] at key
      simp [Chunk.target, key.2.1, goal, goal']
    have distinct : ((List.finRange n).map fun dst => ((0 : ℕ), dst)).Nodup :=
      (List.nodup_finRange n).map (Prod.mk_right_injective 0)
    have whole : on Chunk.target (0, dst) plan.all = plan.incoming 0 dst :=
      on_flatMap labelled distinct (List.mem_finRange dst)
    rw [whole]
    exact sound.posted_subperm 0 dst
  · have none : on Chunk.target (call, dst) state.posted = [] := by
      apply on_eq_nil
      intro chunk member target
      exact first ((congrArg Prod.fst target).symm.trans (posted_call single run member))
    rw [none]
    exact List.nil_subperm

/-- A process that moves may change the sum by its own stage only. -/
theorem sum_stage_set (state : State n Byte) (p : Fin n) (process : Local n Byte) :
    ∑ q, ((state.set p process).process q).stage + (state.process p).stage =
      ∑ q, (state.process q).stage + process.stage := by
  have moved := Finset.sum_update_of_mem (Finset.mem_univ p) (fun q => (state.process q).stage)
    process.stage
  have split := Finset.add_sum_erase Finset.univ (fun q => (state.process q).stage)
    (Finset.mem_univ p)
  have each : ∀ q, ((state.set p process).process q).stage =
      Function.update (fun q => (state.process q).stage) p process.stage q := by
    intro q
    by_cases same : q = p
    · subst same
      simp [State.set]
    · simp [State.set, same]
  simp only [each]
  rw [moved, ← Finset.erase_eq] at *
  omega

theorem potential_set (plan : Plan n Byte) (state : State n Byte) (p : Fin n)
    (process : Local n Byte) :
    potential plan (state.set p process) + (state.process p).stage =
      potential plan state + process.stage := by
  have moved := sum_stage_set state p process
  have posted : (state.set p process).posted = state.posted := rfl
  have inFlight : (state.set p process).inFlight = state.inFlight := rfl
  unfold potential
  rw [posted, inFlight]
  omega

theorem potential_post (new : List (Chunk n Byte))
    (bound : (state.post new).posted.length ≤ plan.all.length) :
    potential plan (state.post new) + new.length = potential plan state := by
  have process : (state.post new).process = state.process := rfl
  unfold potential
  rw [process]
  simp only [State.post, List.length_append] at bound ⊢
  omega

theorem potential_take (plan : Plan n Byte) (state : State n Byte) {chunk : Chunk n Byte}
    {rest : List (Chunk n Byte)}
    (next : Takes Chunk.route state.inFlight chunk rest) :
    potential plan (state.take chunk rest) + 1 = potential plan state := by
  have process : (state.take chunk rest).process = state.process := rfl
  have length := next.perm.length_eq
  rw [List.length_cons] at length
  unfold potential
  rw [process, length]
  simp only [State.take]
  omega

theorem State.set_self (state : State n Byte) (p : Fin n) :
    state.set p (state.process p) = state := by
  unfold State.set
  rw [Function.update_eq_self]

theorem State.set_set (state : State n Byte) (p : Fin n) (first second : Local n Byte) :
    (state.set p first).set p second = state.set p second := by
  unfold State.set
  rw [Function.update_idem]

theorem State.post_nil (state : State n Byte) : state.post [] = state := by
  unfold State.post
  rw [List.append_nil, List.append_nil]

theorem to_testing (plan : Plan n Byte) {p : Fin n} (inside : (state.process p).phase ≠ .outside)
    (fine : (state.process p).phase ≠ .thrown) :
    Leads plan state (state.set p { state.process p with phase := .testing }) := by
  cases phase : (state.process p).phase with
  | outside => exact absurd phase inside
  | probing => exact .step (.probe phase)
  | testing =>
      have same : ({ state.process p with phase := .testing } : Local n Byte) =
          state.process p := by
        rw [← phase]
      rw [same, State.set_self]
      exact .refl
  | thrown => exact absurd phase fine

theorem test_stage {p : Fin n} {process : Local n Byte} {ready : List ℕ}
    (testing : process.phase = .testing) (sending : process.barrierActive = false) :
    (process.test plan p ready).stage ≤ process.stage := by
  have before : process.stage = 2 := by simp [Local.stage, testing, sending]
  rw [before]
  unfold Local.stage
  rw [Local.test_phase]
  split
  · contradiction
  · split <;> omega

theorem to_probing (plan : Plan n Byte) {p : Fin n} (inside : (state.process p).phase ≠ .outside)
    (fine : (state.process p).phase ≠ .thrown) :
    ∃ process : Local n Byte, Leads plan state (state.set p process) ∧
      process.phase = .probing ∧ process.results = (state.process p).results ∧
      process.stage ≤ (state.process p).stage := by
  cases phase : (state.process p).phase with
  | outside => exact absurd phase inside
  | probing =>
      refine ⟨state.process p, ?_, phase, rfl, le_rfl⟩
      rw [State.set_self]
      exact .refl
  | testing =>
      cases active : (state.process p).barrierActive with
      | true =>
          refine ⟨_, .step (.wait phase active), rfl, rfl, ?_⟩
          simp [Local.stage, Local.wait, phase, active]
      | false =>
          have completed : Completed (state.process p).entries state.inFlight [] :=
            ⟨List.nodup_nil, by simp⟩
          have step : Step plan state _ _ := .test phase active completed
          have none : ((state.process p).continueAll plan p [] (state.process p).entries).2 = [] :=
            rfl
          rw [none, State.post_nil] at step
          refine ⟨_, .step step, Local.test_phase, ?_, test_stage phase active⟩
          unfold Local.test
          dsimp only
          split <;> rfl
  | thrown => exact absurd phase fine

namespace Local

/-- The messages with a chunk that has been posted. -/
def requested (process : Local n Byte) : List ℕ :=
  (List.range process.entries.length).filter fun j =>
    (process.entries[j]?.bind Entry.request).isSome

variable {p : Fin n} {process : Local n Byte}

theorem requested_nodup : process.requested.Nodup :=
  List.nodup_range.sublist List.filter_sublist

theorem mem_requested {j : ℕ} : j ∈ process.requested ↔
    ∃ entry chunk, process.entries[j]? = some entry ∧ entry.request = some chunk := by
  simp only [requested, List.mem_filter, List.mem_range, Option.isSome_iff_exists,
    Option.bind_eq_some_iff]
  constructor
  · rintro ⟨_, chunk, entry, found, request⟩
    exact ⟨entry, chunk, found, request⟩
  · rintro ⟨entry, chunk, found, request⟩
    exact ⟨(List.getElem?_eq_some_iff.mp found).1, chunk, entry, found, request⟩

theorem completed_requested : Completed process.entries [] process.requested := by
  refine ⟨requested_nodup, fun j chosen => ?_⟩
  rcases mem_requested.mp chosen with ⟨entry, chunk, found, request⟩
  exact ⟨entry, chunk, found, request, List.not_mem_nil⟩

/-- Without anything left to post, a process enters the barrier. -/
theorem test_requested (fine : process.Fine p)
    (none : (process.continueAll plan p process.requested process.entries).2 = []) :
    (process.test plan p process.requested).barrierActive = true := by
  have finished : ∀ entry ∈ (process.continueAll plan p process.requested process.entries).1,
      entry.finished = true := by
    intro after member
    rcases mem_continueAll requested_nodup member with ⟨j, entry, found, rfl⟩
    by_cases chosen : j ∈ process.requested
    · rw [if_pos chosen]
      rw [picked_new requested_nodup] at none
      have quiet : (process.continued plan p entry).2 = [] :=
        List.flatMap_eq_nil_iff.mp none entry (mem_picked.mpr ⟨j, chosen, found⟩)
      unfold continued Entry.continue_ at quiet ⊢
      split at quiet
      · cases quiet
      · rename_i empty
        rw [if_neg empty]
        simp [Entry.finished, Nat.eq_zero_of_not_pos empty]
    · rw [if_neg chosen]
      have unposted : entry.request = .none := by
        cases request : entry.request with
        | none => rfl
        | some chunk => exact absurd (mem_requested.mpr ⟨entry, chunk, found, request⟩) chosen
      have count := fine.pending entry (List.mem_of_getElem? found) unposted
      simp [Entry.finished, count, unposted]
  have empty : compact [] (process.continueAll plan p process.requested process.entries).1 =
      [] := by
    apply List.eq_nil_iff_forall_not_mem.mpr
    intro entry member
    rcases mem_compact.mp member with ⟨listed, unfinished⟩
    rw [finished entry listed] at unfinished
    cases unfinished
  unfold test
  simp [empty]

end Local

section Progress

variable (single : plan.calls = 1) (run : Reachable plan (fun _ _ => True) state)

include single run

theorem progress_start {p : Fin n} (outside : (state.process p).phase = .outside)
    (first : (state.process p).results = []) :
    ∃ after, Leads plan state after ∧ potential plan after < potential plan state := by
  have more : (state.process p).call < plan.calls := by
    rw [single]
    unfold Local.call
    rw [first]
    exact Nat.zero_lt_one
  have step : Leads plan state _ := .step (.start outside more)
  refine ⟨_, step, ?_⟩
  have moved := potential_set plan state p ((state.process p).start plan p)
  have posted := potential_post _ (length_posted_le single (step.reachable run))
  have before : (state.process p).stage = 3 := by simp [Local.stage, outside, first]
  have after : ((state.process p).start plan p).stage = 2 := by simp [Local.stage, Local.start]
  omega

/-- The first chunk of a channel can be received. -/
theorem receive_first (fits : plan.Fits) {p src : Fin n}
    (inside : (state.process p).phase ≠ .outside) {chunk : Chunk n Byte}
    {queue : List (Chunk n Byte)}
    (waiting : on Chunk.route (src, p) state.inFlight = chunk :: queue) :
    ∃ process rest, Takes Chunk.route state.inFlight chunk rest ∧
      Leads plan state ((state.set p process).take chunk rest) ∧
      process.phase ≠ .outside ∧ process.stage ≤ (state.process p).stage := by
  have listed : chunk ∈ on Chunk.route (src, p) state.inFlight := by simp [waiting]
  rcases mem_on.mp listed with ⟨member, route⟩
  obtain ⟨first, rest, next, alike⟩ : ∃ first rest,
      Takes Chunk.route state.inFlight first rest ∧ first.route = chunk.route :=
    exists_takes member
  have head := next.on_self
  rw [alike, route, waiting] at head
  obtain ⟨rfl, _⟩ := List.cons.inj head
  rcases to_probing plan inside (not_thrown_of_fits single fits run p) with
    ⟨process, leads, probing, _, stage⟩
  have runThere := leads.reachable run
  have arrived : chunk.dst = p := congrArg Prod.snd route
  have here : (state.set p process).process p = process := Function.update_self _ _ _
  have inside' : ((state.set p process).process p).phase ≠ .outside := by simp [here, probing]
  have now : chunk.call = ((state.set p process).process p).call :=
    call_eq_of_single single runThere next.mem inside'
  have target : chunk.target = (((state.set p process).process p).call, p) := by
    rw [← now, ← arrived]
    rfl
  have room := (sound_of_reachable runThere).room fits
    (pure_of_timely (timely_of_single single runThere) p) inside'
    (call_lt_of_reachable runThere p inside') next.mem target
  have ready : ((state.set p process).process p).phase = .probing := by rw [here, probing]
  have receive : Leads plan (state.set p process) _ := .step (.receive ready arrived next room)
  rw [here, State.set_set] at receive
  refine ⟨process.receive chunk, rest, next, leads.trans receive, by simp [Local.receive], ?_⟩
  have same : (process.receive chunk).stage = process.stage := by
    rw [Local.stage_inside (by simp [Local.receive]), Local.stage_inside (by simp [probing])]
    rfl
  rwa [same]

theorem progress_receive (fits : plan.Fits)
    (begun : ∀ p, (state.process p).phase = .outside → (state.process p).results ≠ [])
    {flying : Chunk n Byte} (member : flying ∈ state.inFlight) :
    ∃ after, Leads plan state after ∧ potential plan after < potential plan state := by
  have sound := sound_of_reachable run
  have inside : (state.process flying.dst).phase ≠ .outside := by
    intro outside
    have some := List.length_pos_of_ne_nil (begun flying.dst outside)
    have early := sound.together flying.dst flying.src
    have late := sound.barriers_le member
    have there : (state.process flying.src).phase ≠ .outside := by
      intro idle
      exact sound.not_inFlight ((sound.fine flying.src).outside idle).1 member
    have now := call_lt_of_reachable run flying.src there
    have same := sound.call_eq member
    unfold Local.call at early
    omega
  have waiting : flying ∈ on Chunk.route (flying.src, flying.dst) state.inFlight :=
    mem_on.mpr ⟨member, rfl⟩
  rcases List.exists_cons_of_ne_nil (List.ne_nil_of_mem waiting) with ⟨chunk, queue, first⟩
  rcases receive_first single run fits inside first with ⟨process, rest, next, leads, _, stage⟩
  refine ⟨_, leads, ?_⟩
  have moved := potential_set plan state flying.dst process
  have less := potential_take plan (state.set flying.dst process) next
  omega

/-- The sends of a process whose chunks have all been received can be continued or removed. -/
theorem progress_test (fits : plan.Fits) (landed : state.inFlight = []) {p : Fin n}
    (inside : (state.process p).phase ≠ .outside)
    (sending : (state.process p).barrierActive = false) :
    ∃ after, Leads plan state after ∧ potential plan after < potential plan state := by
  have leads := to_testing plan inside (not_thrown_of_fits single fits run p)
  let process : Local n Byte := { state.process p with phase := .testing }
  have here : (state.set p process).process p = process := Function.update_self _ _ _
  have fine := (sound_of_reachable (leads.reachable run)).fine p
  have completed : Completed ((state.set p process).process p).entries
      (state.set p process).inFlight process.requested := by
    rw [here]
    exact landed ▸ Local.completed_requested
  have testing : ((state.set p process).process p).phase = .testing := by rw [here]
  have still : ((state.set p process).process p).barrierActive = false := by
    rw [here]
    exact sending
  have test : Leads plan (state.set p process) _ := .step (.test testing still completed)
  rw [here] at test
  have posted := potential_post _ (length_posted_le single ((leads.trans test).reachable run))
  refine ⟨_, leads.trans test, ?_⟩
  have moved := potential_set plan state p process
  have tested := potential_set plan (state.set p process) p
    (process.test plan p process.requested)
  rw [here] at tested fine
  have before : process.stage = 2 := by simp [Local.stage, process, sending]
  have same : (state.process p).stage = process.stage := by
    rw [before]
    simp [Local.stage, inside, sending]
  have after : (process.test plan p process.requested).stage ≤ process.stage :=
    test_stage rfl sending
  cases new : (process.continueAll plan p process.requested process.entries).2 with
  | cons chunk rest =>
      rw [new, List.length_cons] at posted
      omega
  | nil =>
      have active := Local.test_requested fine new
      have entered : (process.test plan p process.requested).stage = 1 := by
        simp [Local.stage, Local.test_phase, active]
      rw [new, List.length_nil] at posted
      omega

/-- When everybody is in the barrier, whoever has not noticed can leave. -/
theorem progress_leave (fits : plan.Fits)
    (begun : ∀ p, (state.process p).phase = .outside → (state.process p).results ≠ [])
    (active : ∀ p, (state.process p).phase ≠ .outside → (state.process p).barrierActive = true)
    {p : Fin n} (unfinished : (state.process p).results = []) :
    ∃ after, Leads plan state after ∧ potential plan after < potential plan state := by
  have sound := sound_of_reachable run
  have inside : (state.process p).phase ≠ .outside := fun outside => begun p outside unfinished
  have leads := to_testing plan inside (not_thrown_of_fits single fits run p)
  let process : Local n Byte := { state.process p with phase := .testing }
  have here : (state.set p process).process p = process := Function.update_self _ _ _
  have first : (state.process p).call = 0 := by
    unfold Local.call
    rw [unfinished]
    rfl
  have entered : ∀ q, 1 ≤ (state.process q).barriers := by
    intro q
    have barriers := (sound.fine q).barriers
    by_cases outside : (state.process q).phase = .outside
    · have called := List.length_pos_of_ne_nil (begun q outside)
      unfold Local.call at barriers
      omega
    · rw [active q outside] at barriers
      simp at barriers
      omega
  have own : process.barriers = 1 := by
    have barriers := (sound.fine p).barriers
    rw [active p inside, first] at barriers
    exact barriers
  have all : ∀ q, ((state.set p process).process p).barriers ≤
      ((state.set p process).process q).barriers := by
    intro q
    rw [here, own]
    by_cases same : q = p
    · rw [same, here, own]
    · simp only [State.set, Function.update_of_ne same]
      exact entered q
  have testing : ((state.set p process).process p).phase = .testing := by rw [here]
  have still : ((state.set p process).process p).barrierActive = true := by
    rw [here]
    exact active p inside
  have leave : Leads plan (state.set p process) _ := .step (.leave testing still all)
  rw [here] at leave
  refine ⟨_, leads.trans leave, ?_⟩
  have moved := potential_set plan state p process
  have left := potential_set plan (state.set p process) p process.leave
  rw [here] at left
  have before : (state.process p).stage = 1 := by simp [Local.stage, inside, active p inside]
  have after : process.leave.stage = 0 := by simp [Local.stage, Local.leave]
  omega

end Progress

/-- From every state of a single exchange, all processes can return. -/
theorem can_complete (single : plan.calls = 1) (fits : plan.Fits)
    (run : Reachable plan (fun _ _ => True) state) :
    ∃ after, Leads plan state after ∧ ∀ p, (after.process p).results ≠ [] := by
  induction found : potential plan state using Nat.strong_induction_on generalizing state with
  | _ bound ih =>
      by_cases finished : ∀ p, (state.process p).results ≠ []
      · exact ⟨state, .refl, finished⟩
      · have further : ∃ after, Leads plan state after ∧
            potential plan after < potential plan state := by
          obtain ⟨q, unfinished⟩ := not_forall_not.mp finished
          by_cases begun : ∀ p, (state.process p).phase = .outside → (state.process p).results ≠ []
          · cases flying : state.inFlight with
            | cons chunk rest =>
                exact progress_receive single run fits begun (flying ▸ List.mem_cons_self)
            | nil =>
                by_cases active : ∀ p, (state.process p).phase ≠ .outside →
                    (state.process p).barrierActive = true
                · exact progress_leave single run fits begun active unfinished
                · push Not at active
                  obtain ⟨p, inside, sending⟩ := active
                  exact progress_test single run fits flying inside (by simpa using sending)
          · push Not at begun
            obtain ⟨p, outside, first⟩ := begun
            exact progress_start single run outside first
        rcases further with ⟨next, leads, less⟩
        rcases ih (potential plan next) (found ▸ less) (leads.reachable run) rfl with
          ⟨after, onwards, done⟩
        exact ⟨after, leads.trans onwards, done⟩

end AllToAll

end Talpf
