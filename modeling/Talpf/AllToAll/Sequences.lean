import Talpf.AllToAll.Delivery
import Mathlib.Algebra.GroupWithZero.Nat

/-!
# Exchanges that follow each other

All calls use one tag, and a process leaves the barrier of a call before the
others have noticed that it is over.  What it posts in its next call is then
received in the current call of a process that probes once more.  Calls do not
mix exactly as long as no process receives anything when all processes have
entered the barrier of its call.
-/

namespace Talpf

namespace AllToAll

universe u

variable {n : ℕ} {Byte : Type u}

open Channels

/-- The number of bytes that a call addresses to a process. -/
def Plan.total (plan : Plan n Byte) (call : ℕ) (dst : Fin n) : ℕ :=
  ((List.finRange n).map fun src =>
    (((plan.exchange call src).sends.filter fun send => send.pid = dst).map Send.count).sum).sum

theorem length_chunks {maxMsgSize call : ℕ} {src : Fin n} {data : ℕ → Byte}
    (positive : 0 < maxMsgSize) (entry : Entry n Byte) :
    ((chunks maxMsgSize src call data entry).flatMap Chunk.bytes).length = entry.count := by
  induction entry using chunks.induct maxMsgSize src call data with
  | case1 entry some ih =>
      have size : (entry.chunk maxMsgSize src call data).bytes.length =
          min maxMsgSize entry.count := by
        simp [Entry.chunk, Entry.slice]
      have left : (entry.issend maxMsgSize src call data).count =
          entry.count - min maxMsgSize entry.count := rfl
      rw [chunks_eq some, List.flatMap_cons, List.length_append, ih, size, left]
      omega
  | case2 entry none =>
      rw [chunks, if_neg none]
      change 0 = entry.count
      omega

theorem Plan.length_message (plan : Plan n Byte) {call mesg : ℕ} {src : Fin n} {send : Send n}
    (found : (plan.exchange call src).sends[mesg]? = some send) :
    ((plan.message call src mesg).flatMap Chunk.bytes).length = send.count := by
  unfold message
  rw [found]
  exact length_chunks plan.max_pos (Local.entry send mesg)

theorem Plan.length_incoming (plan : Plan n Byte) (call : ℕ) (dst : Fin n) :
    ((plan.incoming call dst).flatMap Chunk.bytes).length = plan.total call dst := by
  unfold incoming addressed total
  rw [List.flatMap_assoc, List.flatMap_assoc, List.length_flatMap]
  congr 1
  apply List.map_congr_left
  intro src _
  have filtered : (plan.exchange call src).sends.filter (fun send => send.pid = dst) =
      ((plan.exchange call src).sends.zipIdx.filter fun send => send.1.pid = dst).map Prod.fst := by
    conv => lhs; rw [← List.zipIdx_map_fst 0 (plan.exchange call src).sends]
    exact List.filter_map
  rw [filtered, List.map_map, List.flatMap_map, List.length_flatMap]
  congr 1
  apply List.map_congr_left
  rintro ⟨send, mesg⟩ member
  have listed := (List.mem_filter.mp member).1
  exact plan.length_message (List.mem_zipIdx_iff_getElem?.mp listed)

/-- A process receives only while somebody has not entered the barrier of its call. -/
def Timely (state : State n Byte) : Action n Byte → Prop
  | .receive p _ => ∃ q, (state.process q).barriers ≤ (state.process p).call
  | _ => True

/-- Exactly then, what it finds belongs to its call. -/
theorem Sound.call_eq_iff {plan : Plan n Byte} {state : State n Byte} (sound : Sound plan state)
    {chunk : Chunk n Byte} (member : chunk ∈ state.inFlight) (p : Fin n) :
    chunk.call = (state.process p).call ↔
      ∃ q, (state.process q).barriers ≤ (state.process p).call := by
  have late := sound.barriers_le member
  constructor
  · intro same
    exact ⟨chunk.src, same ▸ late⟩
  · rintro ⟨q, outstanding⟩
    have now := sound.call_eq member
    have notAhead := sound.together chunk.src q
    have notBehind := sound.together p chunk.src
    omega

/-- The chunks that a process has received in its calls are of these calls. -/
def Local.Pure (process : Local n Byte) : Prop :=
  (∀ chunk ∈ process.log, chunk.call = process.call) ∧
  ∀ (call : ℕ) (result : Result n Byte), process.results[call]? = some result →
    ∀ chunk ∈ result.log, chunk.call = call

theorem pure_of_timely {plan : Plan n Byte} {state : State n Byte}
    (run : Reachable plan Timely state) (p : Fin n) : (state.process p).Pure := by
  have known : ∀ reached, Transition.Reachable (Step plan) Timely State.initial reached →
      Sound plan reached := fun _ => sound_of_reachable
  revert p
  apply run.invariant_of known
  · intro p
    exact ⟨by simp [State.initial, Local.initial], by simp [State.initial, Local.initial]⟩
  · intro before action after sound _ clean timely step
    cases step with
    | @start p between more =>
        apply Sound.forall_set clean
        exact ⟨by simp [Local.start], (clean p).2⟩
    | @probe p probing =>
        apply Sound.forall_set clean
        exact clean p
    | @receive p chunk rest probing arrived next room =>
        apply Sound.forall_set clean
        refine ⟨?_, (clean p).2⟩
        intro other member
        rcases List.mem_append.mp member with earlier | now
        · exact (clean p).1 other earlier
        · obtain rfl := List.mem_singleton.mp now
          exact (sound.call_eq_iff next.mem p).mpr timely
    | @overflow p chunk rest probing arrived next full =>
        apply Sound.forall_set clean
        exact clean p
    | @test p ready testing sending completed =>
        apply Sound.forall_set clean
        have same : (Local.test plan p (before.process p) ready).log = (before.process p).log ∧
            (Local.test plan p (before.process p) ready).results =
              (before.process p).results := by
          unfold Local.test
          dsimp only
          split <;> exact ⟨rfl, rfl⟩
        unfold Local.Pure Local.call
        rw [same.1, same.2]
        exact clean p
    | @wait p testing active =>
        apply Sound.forall_set clean
        exact clean p
    | @leave p testing active all =>
        apply Sound.forall_set clean
        refine ⟨by simp [Local.leave], ?_⟩
        intro call result found
        rcases Nat.lt_or_ge call (before.process p).results.length with earlier | now
        · rw [Local.leave, List.getElem?_append_left earlier] at found
          exact (clean p).2 call result found
        · rw [Local.leave, List.getElem?_append_right now] at found
          have bound := (List.getElem?_eq_some_iff.mp found).1
          rw [List.length_singleton] at bound
          obtain rfl : call = (before.process p).results.length := by omega
          rw [Nat.sub_self] at found
          obtain rfl := Option.some.inj found
          exact (clean p).1

/-- The result of an exchange of exactly the messages of one call. -/
structure Exchanged (plan : Plan n Byte) (call : ℕ) (p : Fin n) (result : Result n Byte) :
    Prop where
  log : result.log.Perm (plan.incoming call p)
  recvData : result.recvData = result.log.flatMap Chunk.bytes
  received : result.received = plan.total call p

/-- No process has received anything in a call but what was sent in that call. -/
def Unmixed (plan : Plan n Byte) (state : State n Byte) : Prop :=
  ∀ p, (∀ chunk ∈ (state.process p).log, chunk.call = (state.process p).call) ∧
    ∀ (call : ℕ) (result : Result n Byte), (state.process p).results[call]? = some result →
      Exchanged plan call p result

/-- A call that has returned has received its chunks, if each call has received its own. -/
theorem Local.Pure.log_eq {state : State n Byte} {p : Fin n} (clean : (state.process p).Pure)
    (logged : (state.process p).Logged p state.taken) {call : ℕ} {result : Result n Byte}
    (found : (state.process p).results[call]? = some result) :
    on Chunk.target (call, p) state.taken = result.log := by
  let process := state.process p
  have split : on Chunk.target (call, p) state.taken =
      on Chunk.call call (on Chunk.dst p state.taken) := by
    unfold on
    rw [List.filter_filter]
    apply List.filter_congr
    intro chunk _
    simp [Chunk.target]
  have before : process.call ≠ call := by
    have bound := (List.getElem?_eq_some_iff.mp found).1
    exact bound.ne'
  have current : on Chunk.call call process.log = [] := by
    apply on_eq_nil
    intro chunk member same
    exact before ((clean.1 chunk member).symm.trans same)
  have numbered : process.results.flatMap Result.log =
      process.results.zipIdx.flatMap fun item => item.1.log := by
    conv => lhs; rw [← List.zipIdx_map_fst 0 process.results]
    rw [List.flatMap_map]
  have labelled : ∀ item ∈ process.results.zipIdx, ∀ chunk ∈ item.1.log, chunk.call = item.2 := by
    rintro ⟨item, index⟩ member
    exact clean.2 index item (List.mem_zipIdx_iff_getElem?.mp member)
  have distinct : (process.results.zipIdx.map Prod.snd).Nodup := by
    rw [List.zipIdx_map_snd]
    exact List.nodup_range'
  have listed : (result, call) ∈ process.results.zipIdx := List.mem_zipIdx_iff_getElem?.mpr found
  rw [split, logged, on_append, current, List.append_nil, numbered]
  exact on_flatMap labelled distinct listed

theorem Sound.exchanged {plan : Plan n Byte} {state : State n Byte} (sound : Sound plan state)
    {p : Fin n} (clean : (state.process p).Pure) {call : ℕ} {result : Result n Byte}
    (found : (state.process p).results[call]? = some result) : Exchanged plan call p result := by
  have entered : ∀ q, call < (state.process q).barriers := by
    intro q
    have bound := (List.getElem?_eq_some_iff.mp found).1
    exact lt_of_lt_of_le bound (sound.together p q)
  have log := sound.taken_perm entered p
  rw [clean.log_eq (sound.logged p) found] at log
  have kept := (sound.stored p).results result (List.mem_of_getElem? found)
  refine ⟨log, kept.1, ?_⟩
  rw [kept.2, kept.1, (log.flatMap_right Chunk.bytes).length_eq, plan.length_incoming]

/--
In every run in which no process receives anything when all have entered the
barrier of its call, each call receives exactly what was sent in that call.
-/
theorem unmixed_of_timely {plan : Plan n Byte} {state : State n Byte}
    (run : Reachable plan Timely state) : Unmixed plan state := by
  intro p
  have clean := pure_of_timely run p
  exact ⟨clean.1, fun _ _ found => (sound_of_reachable run).exchanged clean found⟩

section

theorem Reachable.free {plan : Plan n Byte} {state after : State n Byte} {action : Action n Byte}
    (run : Reachable plan (fun _ _ => True) state) (step : Step plan state action after) :
    Reachable plan (fun _ _ => True) after :=
  run.tail trivial step

/-- Nothing is sent in the first call, and one byte to the first process in the second. -/
def late : Plan 2 ℕ where
  maxMsgSize := 1
  max_pos := Nat.zero_lt_one
  calls := 2
  exchange call p :=
    ⟨fun _ => 7, if call = 1 ∧ p.val = 1 then [⟨0, 1, ⟨0, Nat.zero_lt_two⟩⟩] else [], 1⟩

/-- The byte of the second call. -/
def lateChunk : Chunk 2 ℕ := ⟨⟨1, Nat.one_lt_two⟩, ⟨0, Nat.zero_lt_two⟩, 1, 0, 0, [7]⟩

/-- The second process has begun its second call before the first has left its first. -/
def ahead : State 2 ℕ where
  process p :=
    if p.val = 0 then ⟨.probing, [], 1, [], 0, true, 1, [], []⟩
    else ⟨.probing, [⟨1, 0, ⟨0, Nat.zero_lt_two⟩, 0, some lateChunk⟩], 1, [], 0, false, 1, [],
      [⟨[], 0, []⟩]⟩
  inFlight := [lateChunk]
  posted := [lateChunk]
  taken := []

/-- A state of two processes is known by its parts. -/
theorem Reachable.of_parts {plan : Plan 2 ℕ} {permitted : State 2 ℕ → Action 2 ℕ → Prop}
    {first second : State 2 ℕ} (run : Reachable plan permitted first)
    (zero : first.process 0 = second.process 0) (one : first.process 1 = second.process 1)
    (inFlight : first.inFlight = second.inFlight) (posted : first.posted = second.posted)
    (taken : first.taken = second.taken) : Reachable plan permitted second := by
  have same : first = second := by
    cases first
    cases second
    simp only [State.mk.injEq]
    exact ⟨funext (Fin.forall_fin_two.mpr ⟨zero, one⟩), inFlight, posted, taken⟩
  exact same ▸ run

theorem Local.test_of_empty {plan : Plan n Byte} {p : Fin n} {process : Local n Byte}
    (empty : process.entries = []) :
    process.test plan p [] =
      { process with
        phase := .probing
        barrierActive := true
        barriers := process.barriers + 1 } := by
  cases process
  subst empty
  simp [Local.test, Local.continueAll, compact]

theorem reachable_ahead : Reachable late Timely ahead := by
  have run : Reachable late Timely State.initial := .refl
  -- both processes enter the barrier of the first call
  have run := run.tail (show Timely _ (.start 0) from trivial) (.start rfl (by decide))
  have run := run.tail (show Timely _ (.start 1) from trivial) (.start rfl (by decide))
  have run := run.tail (show Timely _ (.probe 0) from trivial) (.probe rfl)
  have run := run.tail (show Timely _ (.probe 1) from trivial) (.probe rfl)
  have none : ∀ (entries : List (Entry 2 ℕ)) inFlight, Completed entries inFlight [] :=
    fun _ _ => ⟨List.nodup_nil, by simp⟩
  have run := run.tail (show Timely _ (.test 0 []) from trivial) (.test rfl rfl (none _ _))
  rw [Local.test_of_empty rfl] at run
  have run := run.tail (show Timely _ (.test 1 []) from trivial) (.test rfl rfl (none _ _))
  rw [Local.test_of_empty rfl] at run
  -- the second leaves it and begins its second call
  have run := run.tail (show Timely _ (.probe 1) from trivial) (.probe rfl)
  have run := run.tail (show Timely _ (.leave 1) from trivial) (.leave rfl rfl (by decide))
  have run := run.tail (show Timely _ (.start 1) from trivial) (.start rfl (by decide))
  exact Reachable.of_parts run rfl rfl rfl rfl rfl

theorem unmixed_of_timely_ahead :
    Reachable late Timely ahead ∧ (ahead.process 1).results.length = 1 ∧ Unmixed late ahead :=
  ⟨reachable_ahead, rfl, unmixed_of_timely reachable_ahead⟩

/-- The first process receives the byte of the second call, and returns with it. -/
theorem not_unmixed_late :
    ∃ state, Reachable late (fun _ _ => True) state ∧ ¬Unmixed late state := by
  have run : Reachable late (fun _ _ => True) ahead := reachable_ahead.mono fun _ _ _ => trivial
  have next : Takes Chunk.route ahead.inFlight lateChunk [] := .intro [] lateChunk [] (by simp)
  have receive : Step late ahead (.receive 0 lateChunk) _ := .receive rfl rfl next le_rfl
  have run := run.free receive
  have leave : Step late ((ahead.set 0 ((ahead.process 0).receive lateChunk)).take lateChunk [])
      (.leave 0) _ := .leave rfl rfl (by decide)
  have run := run.free leave
  refine ⟨_, run, fun unmixed => ?_⟩
  have exchanged := (unmixed 0).2 0 ⟨[7], 1, [lateChunk]⟩ rfl
  have nothing : late.total 0 0 = 0 := by decide
  have received := exchanged.received
  rw [nothing] at received
  cases received

end

end AllToAll

end Talpf
