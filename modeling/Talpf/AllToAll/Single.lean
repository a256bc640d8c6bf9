import Talpf.AllToAll.Sequences
import Mathlib.Data.List.Flatten

/-!
# One exchange

In a single call there is nothing to mix: whatever is in flight belongs to it.
Hence every process returns with all chunks that are addressed to it, and no
process runs out of room if there is enough for all of them.
-/

namespace Talpf

namespace AllToAll

universe u

variable {n : ℕ} {Byte : Type u} {plan : Plan n Byte} {state : State n Byte}

open Channels

/-- The calls of a process are those of the plan. -/
theorem call_le_of_reachable {permitted : State n Byte → Action n Byte → Prop}
    (run : Reachable plan permitted state) (p : Fin n) :
    (state.process p).call + (if (state.process p).phase = .outside then 0 else 1) ≤
      plan.calls := by
  let Holds (_ : Fin n) (process : Local n Byte) : Prop :=
    process.call + (if process.phase = .outside then 0 else 1) ≤ plan.calls
  have all : ∀ p, Holds p (state.process p) := by
    apply run.invariant
    · exact fun _ => Nat.zero_le _
    · intro before action after each _ step
      have inside : ∀ {p phase}, (before.process p).phase = phase → phase ≠ .outside →
          (before.process p).call + 1 ≤ plan.calls := by
        intro p phase now apart
        have bound := each p
        simp only [Holds, now, if_neg apart] at bound
        exact bound
      cases step with
      | @start p between more => exact Sound.forall_set each more
      | @probe p probing => exact Sound.forall_set each (inside probing (by simp))
      | @receive p chunk rest probing arrived next room =>
          exact Sound.forall_set each (inside probing (by simp))
      | @overflow p chunk rest probing arrived next full =>
          exact Sound.forall_set each (inside probing (by simp))
      | @test p ready testing sending completed =>
          refine Sound.forall_set each ?_
          simp only [Holds, Local.test_call, Local.test_phase]
          exact inside testing (by simp)
      | @wait p testing active => exact Sound.forall_set each (inside testing (by simp))
      | @leave p testing active all =>
          refine Sound.forall_set each ?_
          simpa [Holds, Local.leave, Local.call] using inside testing (by simp)
  exact all p

theorem call_lt_of_reachable {permitted : State n Byte → Action n Byte → Prop}
    (run : Reachable plan permitted state) (p : Fin n)
    (inside : (state.process p).phase ≠ .outside) : (state.process p).call < plan.calls := by
  have bound := call_le_of_reachable run p
  rw [if_neg inside] at bound
  exact bound

/-- In a single call, whatever is in flight is of the call that everybody is in. -/
theorem call_eq_of_single (single : plan.calls = 1)
    {permitted : State n Byte → Action n Byte → Prop} (run : Reachable plan permitted state)
    {chunk : Chunk n Byte} (flying : chunk ∈ state.inFlight) {p : Fin n}
    (inside : (state.process p).phase ≠ .outside) : chunk.call = (state.process p).call := by
  have sound := sound_of_reachable run
  have there : (state.process chunk.src).phase ≠ .outside := by
    intro outside
    exact sound.not_inFlight ((sound.fine chunk.src).outside outside).1 flying
  have here := call_lt_of_reachable run p inside
  have now := call_lt_of_reachable run chunk.src there
  rw [sound.call_eq flying]
  omega

/-- Every run of a single call is one in which no process receives anything too late. -/
theorem timely_of_single (single : plan.calls = 1)
    {permitted : State n Byte → Action n Byte → Prop} (run : Reachable plan permitted state) :
    Reachable plan Timely state := by
  induction run with
  | refl => exact .refl
  | @tail before after earlier next ih =>
      rcases next with ⟨action, _, step⟩
      refine ih.tail ?_ step
      cases step with
      | @receive p chunk rest probing arrived next room =>
          apply ((sound_of_reachable earlier).call_eq_iff next.mem p).mp
          exact call_eq_of_single single earlier next.mem (by simp [probing])
      | _ => trivial

/-- Nothing is posted for another call. -/
theorem posted_call (single : plan.calls = 1) {permitted : State n Byte → Action n Byte → Prop}
    (run : Reachable plan permitted state) {chunk : Chunk n Byte} (posted : chunk ∈ state.posted) :
    chunk.call = 0 := by
  have sound := sound_of_reachable run
  have bound := call_le_of_reachable run chunk.src
  by_contra later
  have unsent : (state.process chunk.src).unsent plan chunk.src chunk.call chunk.mesg =
      plan.message chunk.call chunk.src chunk.mesg := by
    by_cases outside : (state.process chunk.src).phase = .outside
    · rw [if_pos outside, single] at bound
      rcases Nat.lt_or_ge (state.process chunk.src).call chunk.call with ahead | now
      · exact Local.unsent_of_lt ahead
      · have same : chunk.call = (state.process chunk.src).call := by omega
        rw [same]
        exact Local.unsent_of_outside outside
    · rw [if_neg outside, single] at bound
      exact Local.unsent_of_lt (by omega)
  have tally := sound.tally chunk.src chunk.call chunk.mesg
  rw [unsent] at tally
  have none := List.append_cancel_right (tally.trans (List.nil_append _).symm)
  have member : chunk ∈ on Chunk.message (chunk.src, chunk.call, chunk.mesg) state.posted :=
    mem_on.mpr ⟨posted, rfl⟩
  rw [none] at member
  cases member

/-- The messages to a process fit into its receive buffer, in each call. -/
def Plan.Fits (plan : Plan n Byte) : Prop :=
  ∀ call < plan.calls, ∀ dst, plan.total call dst ≤ (plan.exchange call dst).recvSize

theorem length_le_of_subperm {first second : List (Chunk n Byte)}
    (subperm : first.Subperm second) :
    (first.flatMap Chunk.bytes).length ≤ (second.flatMap Chunk.bytes).length := by
  rcases subperm with ⟨chosen, shuffled, sublist⟩
  rw [← (shuffled.flatMap_right Chunk.bytes).length_eq]
  exact (sublist.flatMap Chunk.bytes).length_le

/-- The chunks received and a chunk of the same call in flight are among those of the call. -/
theorem Sound.log_subperm (sound : Sound plan state) {p : Fin n}
    (clean : (state.process p).Pure) {chunk : Chunk n Byte} (flying : chunk ∈ state.inFlight)
    (target : chunk.target = ((state.process p).call, p)) :
    ((state.process p).log ++ [chunk]).Subperm
      (plan.incoming (state.process p).call p) := by
  have kept : (state.process p).log.Sublist
      (on Chunk.target ((state.process p).call, p) state.taken) := by
    have received : (state.process p).log.Sublist (on Chunk.dst p state.taken) := by
      rw [sound.logged p]
      exact List.sublist_append_right _ _
    have all : on Chunk.target ((state.process p).call, p) (state.process p).log =
        (state.process p).log := by
      apply on_eq_self
      intro other member
      have goal : other.dst = p := (mem_on.mp (received.subset member)).2
      simp only [Chunk.target, goal, clean.1 other member]
    rw [← all]
    exact (received.trans List.filter_sublist).filter _
  have single : [chunk].Sublist
      (on Chunk.target ((state.process p).call, p) state.inFlight) :=
    List.singleton_sublist.mpr (mem_on.mpr ⟨flying, target⟩)
  have whole : (on Chunk.target _ state.posted).Perm _ :=
    perm_on sound.conserved.perm ((state.process p).call, p)
  rw [on_append] at whole
  exact ((kept.append single).subperm.trans whole.symm.subperm).trans
    (sound.posted_subperm (state.process p).call p)

/-- With enough room, nothing overflows as long as the calls do not mix. -/
theorem Sound.room (sound : Sound plan state) (fits : plan.Fits) {p : Fin n}
    (clean : (state.process p).Pure) (inside : (state.process p).phase ≠ .outside)
    (bound : (state.process p).call < plan.calls) {chunk : Chunk n Byte}
    (flying : chunk ∈ state.inFlight) (target : chunk.target = ((state.process p).call, p)) :
    chunk.bytes.length ≤ (state.process p).recvSize := by
  rcases (sound.stored p).inside inside with ⟨recvData, received, whole⟩
  have total := length_le_of_subperm (sound.log_subperm clean flying target)
  rw [plan.length_incoming, List.flatMap_append, List.length_append, ← recvData] at total
  have enough := fits (state.process p).call bound p
  simp only [List.flatMap_singleton] at total
  omega

/-- Nobody has thrown, and whoever has returned has what is addressed to it, exactly once. -/
def Delivered (plan : Plan n Byte) (state : State n Byte) : Prop :=
  ∀ p, (state.process p).phase ≠ .thrown ∧
    ∀ result ∈ (state.process p).results, Exchanged plan 0 p result

theorem not_thrown_of_fits (single : plan.calls = 1) (fits : plan.Fits)
    (run : Reachable plan (fun _ _ => True) state) (p : Fin n) :
    (state.process p).phase ≠ .thrown := by
  let Holds (_ : Fin n) (process : Local n Byte) : Prop := process.phase ≠ .thrown
  have all : ∀ p, Holds p (state.process p) := by
    induction run with
    | refl => exact fun _ => by simp [Holds, State.initial, Local.initial]
    | @tail before after earlier next ih =>
        rcases next with ⟨action, _, step⟩
        have sound := sound_of_reachable earlier
        cases step with
        | start between more => exact Sound.forall_set ih (by simp [Holds, Local.start])
        | probe probing => exact Sound.forall_set ih (by simp [Holds, Local.probe])
        | receive probing arrived next room =>
            exact Sound.forall_set ih (by simp [Holds, Local.receive])
        | @overflow p chunk rest probing arrived next full =>
            have inside : (before.process p).phase ≠ .outside := by simp [probing]
            have now := call_eq_of_single single earlier next.mem inside
            have target : chunk.target = ((before.process p).call, p) := by
              simp [Chunk.target, now, arrived]
            have clean := pure_of_timely (timely_of_single single earlier) p
            have room := sound.room fits clean inside
              (call_lt_of_reachable earlier p inside) next.mem target
            omega
        | test testing sending completed =>
            exact Sound.forall_set ih (by simp [Holds, Local.test_phase])
        | wait testing active => exact Sound.forall_set ih (by simp [Holds, Local.wait])
        | leave testing active all => exact Sound.forall_set ih (by simp [Holds, Local.leave])
  exact all p

theorem exchanged_of_single (single : plan.calls = 1)
    (run : Reachable plan (fun _ _ => True) state) {p : Fin n} {result : Result n Byte}
    (member : result ∈ (state.process p).results) : Exchanged plan 0 p result := by
  rcases List.mem_iff_getElem?.mp member with ⟨call, found⟩
  have first : call = 0 := by
    have bound := (List.getElem?_eq_some_iff.mp found).1
    have calls := call_le_of_reachable run p
    unfold Local.call at calls
    omega
  subst first
  have timely := timely_of_single single run
  exact (sound_of_reachable timely).exchanged (pure_of_timely timely p) found

theorem delivered_of_fits (single : plan.calls = 1) (fits : plan.Fits)
    (run : Reachable plan (fun _ _ => True) state) : Delivered plan state :=
  fun p => ⟨not_thrown_of_fits single fits run p, fun _ => exchanged_of_single single run⟩

/-- Two bytes from the second process to the first, of which one fits into a chunk. -/
def single : Plan 2 ℕ where
  maxMsgSize := 1
  max_pos := Nat.zero_lt_one
  calls := 1
  exchange _ p :=
    ⟨fun i => 7 + i, if p.val = 1 then [⟨0, 2, ⟨0, Nat.zero_lt_two⟩⟩] else [], 2⟩

def firstChunk : Chunk 2 ℕ := ⟨⟨1, Nat.one_lt_two⟩, ⟨0, Nat.zero_lt_two⟩, 0, 0, 0, [7]⟩

def secondChunk : Chunk 2 ℕ := ⟨⟨1, Nat.one_lt_two⟩, ⟨0, Nat.zero_lt_two⟩, 0, 0, 1, [8]⟩

/-- The first process is in the barrier, and the second looks after its send. -/
def halfway : State 2 ℕ where
  process p :=
    if p.val = 0 then ⟨.probing, [], 1, [7], 1, true, 1, [firstChunk], []⟩
    else ⟨.testing, [⟨1, 1, ⟨0, Nat.zero_lt_two⟩, 0, some firstChunk⟩], 2, [], 0, false, 0, [], []⟩
  inFlight := []
  posted := [firstChunk]
  taken := [firstChunk]

theorem reachable_halfway : Reachable single (fun _ _ => True) halfway := by
  have run : Reachable single (fun _ _ => True) State.initial := .refl
  have run := run.free (.start (p := 0) rfl (by decide))
  have run := run.free (.start (p := 1) rfl (by decide))
  have next : Takes Chunk.route [firstChunk] firstChunk [] := .intro [] firstChunk [] (by simp)
  have run := run.free (.receive (p := 0) rfl rfl next (by decide))
  have none : ∀ inFlight, Completed ([] : List (Entry 2 ℕ)) inFlight [] :=
    fun _ => ⟨List.nodup_nil, by simp⟩
  have run := run.free (.test (p := 0) rfl rfl (none _))
  rw [Local.test_of_empty rfl] at run
  have run := run.free (.probe (p := 1) rfl)
  exact Reachable.of_parts run rfl rfl rfl rfl rfl

/-- The first process has both bytes, and the second looks after its send again. -/
def received : State 2 ℕ where
  process p :=
    if p.val = 0 then ⟨.probing, [], 0, [7, 8], 2, true, 1, [firstChunk, secondChunk], []⟩
    else
      ⟨.testing, [⟨2, 0, ⟨0, Nat.zero_lt_two⟩, 0, some secondChunk⟩], 2, [], 0, false, 0, [], []⟩
  inFlight := []
  posted := [firstChunk, secondChunk]
  taken := [firstChunk, secondChunk]

theorem reachable_received : Reachable single (fun _ _ => True) received := by
  have request : Completed (halfway.process 1).entries halfway.inFlight [0] := by
    refine ⟨by simp, ?_⟩
    intro j member
    obtain rfl := List.mem_singleton.mp member
    exact ⟨_, firstChunk, rfl, rfl, List.not_mem_nil⟩
  have continued : (halfway.process 1).test single 1 [0] =
      ⟨.probing, [⟨2, 0, ⟨0, Nat.zero_lt_two⟩, 0, some secondChunk⟩], 2, [], 0, false, 0, [],
        []⟩ := by
    simp [Local.test, Local.continueAll, Entry.continue_, Entry.issend, Entry.chunk, Entry.slice,
      compact, Entry.finished, halfway, single, Local.call, secondChunk]
  have run := reachable_halfway.free (.test (p := 1) rfl rfl request)
  rw [continued] at run
  have next : Takes Chunk.route [secondChunk] secondChunk [] := .intro [] secondChunk [] (by simp)
  have run := run.free (.receive (p := 0) rfl rfl next (by decide))
  have run := run.free (.wait (p := 0) rfl rfl)
  have run := run.free (.probe (p := 1) rfl)
  exact Reachable.of_parts run rfl rfl rfl rfl rfl

/-- The first process returns with the bytes. -/
theorem delivered_of_fits_single :
    ∃ state, Reachable single (fun _ _ => True) state ∧ Delivered single state ∧
      (state.process 0).results = [⟨[7, 8], 2, [firstChunk, secondChunk]⟩] := by
  have fits : single.Fits := by
    intro call bound dst
    obtain rfl : call = 0 := Nat.lt_one_iff.mp bound
    revert dst
    decide
  have request : Completed (received.process 1).entries received.inFlight [0] := by
    refine ⟨by simp, ?_⟩
    intro j member
    obtain rfl := List.mem_singleton.mp member
    exact ⟨_, secondChunk, rfl, rfl, List.not_mem_nil⟩
  have finished : (received.process 1).test single 1 [0] =
      ⟨.probing, [], 2, [], 0, true, 1, [], []⟩ := by
    simp [Local.test, Local.continueAll, Entry.continue_, compact, Entry.finished, received]
  have run := reachable_received.free (.test (p := 1) rfl rfl request)
  rw [finished] at run
  have run := run.free (.probe (p := 0) rfl)
  have run := run.free (.leave (p := 0) rfl rfl (by decide))
  exact ⟨_, run, delivered_of_fits rfl fits run, rfl⟩

end AllToAll

end Talpf
