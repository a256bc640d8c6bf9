import Talpf.AllToAll.Entries

/-!
# No chunk is lost or received twice

Every chunk is posted once, in the order of its message, and it is in flight
until it is received.  A chunk in flight is the request of an entry of its
sender, so that a process with an empty list has had all its chunks received
when it enters the barrier.
-/

namespace Talpf

namespace AllToAll

universe u

variable {n : ℕ} {Byte : Type u}

open Channels

namespace Local

/-- What has been received is in the buffer. -/
structure Stored (plan : Plan n Byte) (p : Fin n) (process : Local n Byte) : Prop where
  inside : process.phase ≠ .outside →
    process.recvData = process.log.flatMap Chunk.bytes ∧
    process.received = process.recvData.length ∧
    process.recvSize + process.received = (plan.exchange process.call p).recvSize
  results : ∀ result ∈ process.results,
    result.recvData = result.log.flatMap Chunk.bytes ∧ result.received = result.recvData.length

/-- The chunks that the process has received are those of its calls. -/
def Logged (p : Fin n) (taken : List (Chunk n Byte)) (process : Local n Byte) : Prop :=
  on Chunk.dst p taken = process.results.flatMap Result.log ++ process.log

section Test

variable {plan : Plan n Byte} {p : Fin n} {process : Local n Byte} {ready : List ℕ}

theorem test_fine (fine : process.Fine p) (sending : process.barrierActive = false)
    (distinct : ready.Nodup) :
    (process.test plan p ready).Fine p := by
  have mesgs : (process.continueAll plan p ready process.entries).1.map Entry.mesg =
      process.entries.map Entry.mesg := continueAll_mesgs distinct
  refine ⟨?_, ?_, ?_, by simp [test_phase], ?_, ?_⟩
  · rw [test_entries]
    apply compact_mesgs
    rw [mesgs]
    exact fine.distinct
  · intro after listed chunk request
    rw [test_entries] at listed
    rcases mem_continueAll distinct (mem_compact.mp listed).1 with ⟨j, entry, found, equal⟩
    have member := List.mem_of_getElem? found
    rw [test_call]
    by_cases chosen : j ∈ ready
    · rw [if_pos chosen] at equal
      have same : after.mesg = entry.mesg := by
        rw [equal]
        exact continue_mesg
      rw [equal] at request
      rw [same]
      exact continue_request request
    · rw [if_neg chosen] at equal
      subst equal
      exact fine.request after member chunk request
  · intro after listed none
    rw [test_entries] at listed
    rcases mem_continueAll distinct (mem_compact.mp listed).1 with ⟨j, entry, found, equal⟩
    by_cases chosen : j ∈ ready
    · rw [if_pos chosen] at equal
      rw [equal] at none ⊢
      exact continue_pending none
    · rw [if_neg chosen] at equal
      subst equal
      exact fine.pending after (List.mem_of_getElem? found) none
  · unfold test
    dsimp only
    split
    · rename_i empty
      exact fun _ => List.isEmpty_iff.mp empty
    · rw [sending]
      intro impossible
      cases impossible
  · have barriers := fine.barriers
    rw [sending] at barriers
    unfold test
    dsimp only
    split
    · exact congrArg (· + 1) barriers
    · rw [sending]
      exact barriers

theorem test_barriers : process.barriers ≤ (process.test plan p ready).barriers := by
  unfold test
  dsimp only
  split
  · exact Nat.le_succ _
  · exact le_rfl

theorem test_stored (testing : process.phase = .testing) (stored : process.Stored plan p) :
    (process.test plan p ready).Stored plan p := by
  have inside := stored.inside (by simp [testing])
  unfold test
  dsimp only
  split
  · exact ⟨fun _ => inside, stored.results⟩
  · exact ⟨fun _ => inside, stored.results⟩

theorem test_logged {taken : List (Chunk n Byte)} (logged : process.Logged p taken) :
    (process.test plan p ready).Logged p taken := by
  unfold test
  dsimp only
  split
  · exact logged
  · exact logged

end Test

end Local

/-- What holds at every moment of any number of calls. -/
structure Sound (plan : Plan n Byte) (state : State n Byte) : Prop where
  conserved : Conserved Chunk.route state.posted state.taken state.inFlight
  fine : ∀ p, (state.process p).Fine p
  stored : ∀ p, (state.process p).Stored plan p
  tally : ∀ p call mesg, on Chunk.message (p, call, mesg) state.posted ++
    (state.process p).unsent plan p call mesg = plan.message call p mesg
  requests : ∀ chunk ∈ state.inFlight, ∃ entry ∈ (state.process chunk.src).entries,
    entry.request = some chunk
  together : ∀ p q, (state.process p).call ≤ (state.process q).barriers
  logged : ∀ p, (state.process p).Logged p state.taken

namespace Sound

variable {plan : Plan n Byte} {state : State n Byte}

theorem initial (plan : Plan n Byte) : Sound plan State.initial := by
  refine ⟨Conserved.empty, ?_, ?_, ?_, ?_, ?_, ?_⟩
  · intro p
    have empty : (State.initial.process p : Local n Byte).entries = [] := rfl
    exact ⟨by simp [empty], by simp [empty], by simp [empty], fun _ => ⟨rfl, rfl, rfl⟩,
      fun _ => rfl, rfl⟩
  · intro p
    exact ⟨fun inside => absurd rfl inside, by simp [State.initial, Local.initial]⟩
  · intro p call mesg
    have outside : (Local.initial : Local n Byte).phase = .outside := rfl
    have first : (Local.initial : Local n Byte).call = 0 := rfl
    rcases Nat.eq_zero_or_pos call with rfl | later
    · exact Local.unsent_of_outside outside
    · exact Local.unsent_of_lt (first ▸ later)
  · intro chunk member
    cases member
  · exact fun _ _ => Nat.zero_le _
  · exact fun _ => rfl

/-- A process that is between two calls, or in a barrier, has nothing in flight. -/
theorem not_inFlight (sound : Sound plan state) {chunk : Chunk n Byte}
    (empty : (state.process chunk.src).entries = []) : chunk ∉ state.inFlight := by
  intro member
  rcases sound.requests chunk member with ⟨entry, listed, _⟩
  rw [empty] at listed
  cases listed

/-- A chunk in flight belongs to the current call of its sender. -/
theorem call_eq (sound : Sound plan state) {chunk : Chunk n Byte}
    (member : chunk ∈ state.inFlight) : chunk.call = (state.process chunk.src).call := by
  rcases sound.requests chunk member with ⟨entry, listed, request⟩
  have key := (sound.fine chunk.src).request entry listed chunk request
  simp only [Chunk.message, Prod.mk.injEq] at key
  exact key.2.1

theorem tally_set (sound : Sound plan state) {p : Fin n} {after : Local n Byte}
    {new : List (Chunk n Byte)} (advances : Local.Advances plan p (state.process p) after new)
    (q : Fin n) (call mesg : ℕ) :
    on Chunk.message (q, call, mesg) (state.posted ++ new) ++
        (Function.update state.process p after q).unsent plan q call mesg =
      plan.message call q mesg := by
  rw [on_append, List.append_assoc]
  by_cases same : q = p
  · subst same
    rw [Function.update_self, advances.2, sound.tally]
  · have elsewhere : on Chunk.message (q, call, mesg) new = [] := by
      apply on_eq_nil
      intro chunk member key
      have source := congrArg Prod.fst key
      exact same (source.symm.trans (advances.1 chunk member))
    rw [Function.update_of_ne same, elsewhere, List.nil_append, sound.tally]

/-- A property of all processes, after one of them has moved. -/
theorem forall_set {Holds : Fin n → Local n Byte → Prop} {p : Fin n} {after : Local n Byte}
    (before : ∀ q, Holds q (state.process q)) (moved : Holds p after) (q : Fin n) :
    Holds q (Function.update state.process p after q) := by
  by_cases same : q = p
  · subst same
    rwa [Function.update_self]
  · rw [Function.update_of_ne same]
    exact before q

/-- The entry with the request of a chunk in flight is not one that has completed. -/
theorem requests_set (sound : Sound plan state) {p : Fin n} {after : Local n Byte}
    (kept : ∀ entry ∈ (state.process p).entries, ∀ chunk ∈ state.inFlight,
      entry.request = some chunk → entry ∈ after.entries) :
    ∀ chunk ∈ state.inFlight, ∃ entry ∈ (Function.update state.process p after chunk.src).entries,
      entry.request = some chunk := by
  intro chunk member
  rcases sound.requests chunk member with ⟨entry, listed, request⟩
  by_cases same : chunk.src = p
  · rw [same, Function.update_self]
    rw [same] at listed
    exact ⟨entry, kept entry listed chunk member request, request⟩
  · rw [Function.update_of_ne same]
    exact ⟨entry, listed, request⟩

theorem together_set (sound : Sound plan state) {p : Fin n} {after : Local n Byte}
    (calls : ∀ q, after.call ≤ (state.process q).barriers)
    (barriers : (state.process p).barriers ≤ after.barriers) (q r : Fin n) :
    (Function.update state.process p after q).call ≤
      (Function.update state.process p after r).barriers := by
  have earlier : (Function.update state.process p after q).call ≤ (state.process r).barriers := by
    by_cases same : q = p
    · subst same
      rw [Function.update_self]
      exact calls r
    · rw [Function.update_of_ne same]
      exact sound.together q r
  by_cases same : r = p
  · subst same
    rw [Function.update_self]
    exact earlier.trans barriers
  · rwa [Function.update_of_ne same]

theorem start (sound : Sound plan state) {p : Fin n}
    (between : (state.process p).phase = .outside) :
    Sound plan ((state.set p ((state.process p).start plan p)).post
      (((state.process p).opened plan p).flatMap Prod.snd)) := by
  have idle := (sound.fine p).outside between
  refine ⟨sound.conserved.post _, forall_set sound.fine ?_, forall_set sound.stored ?_,
    sound.tally_set (Local.start_advances between), ?_, ?_, forall_set sound.logged ?_⟩
  · refine ⟨?_, ?_, ?_, by simp [Local.start], by simp [Local.start], ?_⟩
    · have mesgs : _ = List.range (plan.exchange (state.process p).call p).sends.length :=
        Local.opened_mesgs
      simp only [Local.start, List.map_map]
      exact mesgs ▸ List.nodup_range
    · intro entry listed chunk request
      rcases List.mem_map.mp listed with ⟨item, member, rfl⟩
      rcases Local.opened_entry member with ⟨send, found, equal⟩
      have fresh : (Local.entry send item.1.mesg : Entry n Byte).request = none := rfl
      rw [equal] at request
      have known := begin_request fresh request
      exact known
    · intro entry listed none
      rcases List.mem_map.mp listed with ⟨item, member, rfl⟩
      rcases Local.opened_entry member with ⟨send, found, equal⟩
      rw [equal] at none ⊢
      exact begin_pending plan.max_pos none
    · have barriers := (sound.fine p).barriers
      rw [idle.2.1] at barriers
      exact barriers
  · refine ⟨fun _ => ⟨rfl, rfl, by simp [Local.start, Local.call]⟩, ?_⟩
    exact (sound.stored p).results
  · intro chunk member
    rcases List.mem_append.mp member with before | new
    · refine sound.requests_set (fun entry listed => ?_) chunk before
      rw [idle.1] at listed
      cases listed
    · rcases List.mem_flatMap.mp new with ⟨item, opened, inside⟩
      rcases Local.opened_entry opened with ⟨send, found, equal⟩
      have source : chunk.src = p := (Local.start_advances between).1 chunk new
      refine ⟨item.1, ?_, ?_⟩
      · simp only [State.post, State.set, source, Function.update_self]
        exact List.mem_map.mpr ⟨item, opened, rfl⟩
      · rw [equal] at inside ⊢
        exact (begin_new chunk inside).1
  · exact sound.together_set (fun q => sound.together p q) le_rfl
  · have logged := sound.logged p
    unfold Local.Logged at logged
    rw [idle.2.2] at logged
    exact logged

theorem test (sound : Sound plan state) {p : Fin n} {ready : List ℕ}
    (testing : (state.process p).phase = .testing)
    (sending : (state.process p).barrierActive = false)
    (completed : Completed (state.process p).entries state.inFlight ready) :
    Sound plan ((state.set p ((state.process p).test plan p ready)).post
      ((state.process p).continueAll plan p ready (state.process p).entries).2) := by
  have fine := sound.fine p
  have inside : (state.process p).phase ≠ .outside := by simp [testing]
  have advances : Local.Advances plan p (state.process p) _ _ :=
    Local.test_advances fine inside completed.1
  refine ⟨sound.conserved.post _, forall_set sound.fine ?_, forall_set sound.stored ?_,
    sound.tally_set advances, ?_, ?_, forall_set sound.logged ?_⟩
  · exact Local.test_fine fine sending completed.1
  · exact Local.test_stored testing (sound.stored p)
  · intro chunk member
    rcases List.mem_append.mp member with before | new
    · refine sound.requests_set (fun entry listed other flying request => ?_) chunk before
      rw [Local.test_entries]
      rcases List.mem_iff_getElem?.mp listed with ⟨j, found⟩
      have stays : j ∉ ready := by
        intro chosen
        rcases completed.2 j chosen with ⟨entry', chunk', found', request', gone⟩
        obtain rfl : entry = entry' := Option.some.inj (found.symm.trans found')
        obtain rfl : other = chunk' := Option.some.inj (request.symm.trans request')
        exact gone flying
      have now : _ ∈ ((state.process p).continueAll plan p ready (state.process p).entries).1 :=
        Local.continueAll_of_entry completed.1 found
      rw [if_neg stays] at now
      refine mem_compact.mpr ⟨now, ?_⟩
      simp [Entry.finished, request]
    · have source : chunk.src = p := advances.1 chunk new
      rw [Local.picked_new completed.1] at new
      rcases List.mem_flatMap.mp new with ⟨entry, picked, inside⟩
      rcases Local.mem_picked.mp picked with ⟨j, chosen, found⟩
      have request := (continue_new chunk inside).1
      have now : _ ∈ ((state.process p).continueAll plan p ready (state.process p).entries).1 :=
        Local.continueAll_of_entry completed.1 found
      rw [if_pos chosen] at now
      refine ⟨_, ?_, request⟩
      simp only [State.post, State.set, source, Function.update_self, Local.test_entries]
      refine mem_compact.mpr ⟨now, ?_⟩
      simp [Entry.finished, request]
  · refine sound.together_set (fun q => ?_) Local.test_barriers
    rw [Local.test_call]
    exact sound.together p q
  · exact Local.test_logged (sound.logged p)

/-- A process that only moves on in its loop. -/
theorem proceed (sound : Sound plan state) {p : Fin n} {phase : Phase}
    (before : (state.process p).phase ≠ .outside) (after : phase ≠ .outside) :
    Sound plan (state.set p { state.process p with phase := phase }) := by
  have fine := sound.fine p
  have stored := sound.stored p
  have same : ({ state.process p with phase := phase } : Local n Byte).unsent plan p =
      (state.process p).unsent plan p :=
    Local.unsent_congr rfl rfl (by simp [before, after])
  refine ⟨sound.conserved, forall_set sound.fine ?_, forall_set sound.stored ?_, ?_, ?_, ?_,
    forall_set sound.logged (sound.logged p)⟩
  · exact ⟨fine.distinct, fine.request, fine.pending, fun impossible => absurd impossible after,
      fine.active, fine.barriers⟩
  · exact ⟨fun _ => stored.inside before, stored.results⟩
  · have tally := sound.tally_set (Local.advances_of_unsent same)
    simp only [List.append_nil] at tally
    exact tally
  · exact sound.requests_set fun entry listed _ _ _ => listed
  · exact sound.together_set (fun q => sound.together p q) le_rfl

theorem receive (sound : Sound plan state) {p : Fin n} {chunk : Chunk n Byte}
    {rest : List (Chunk n Byte)} (probing : (state.process p).phase = .probing)
    (arrived : chunk.dst = p) (next : Takes Chunk.route state.inFlight chunk rest)
    (room : chunk.bytes.length ≤ (state.process p).recvSize) :
    Sound plan ((state.set p ((state.process p).receive chunk)).take chunk rest) := by
  have fine := sound.fine p
  have stored := sound.stored p
  have inside : (state.process p).phase ≠ .outside := by simp [probing]
  have same : ((state.process p).receive chunk).unsent plan p =
      (state.process p).unsent plan p :=
    Local.unsent_congr rfl rfl (by simp [Local.receive, probing])
  refine ⟨sound.conserved.take next, forall_set sound.fine ?_, forall_set sound.stored ?_, ?_,
    ?_, ?_, ?_⟩
  · exact ⟨fine.distinct, fine.request, fine.pending, by simp [Local.receive], fine.active,
      fine.barriers⟩
  · rcases stored.inside inside with ⟨recvData, received, whole⟩
    refine ⟨fun _ => ⟨?_, ?_, ?_⟩, stored.results⟩
    · simp [Local.receive, recvData]
    · simp [Local.receive, received]
    · change _ - _ + (_ + _) = (plan.exchange (state.process p).call p).recvSize
      omega
  · have tally := sound.tally_set (Local.advances_of_unsent same)
    simp only [List.append_nil] at tally
    exact tally
  · intro other member
    have earlier : other ∈ state.inFlight := next.perm.mem_iff.mpr (List.mem_cons_of_mem _ member)
    have kept : ∀ entry ∈ (state.process p).entries, ∀ flying ∈ state.inFlight,
        entry.request = some flying → entry ∈ ((state.process p).receive chunk).entries :=
      fun entry listed _ _ _ => listed
    exact sound.requests_set kept other earlier
  · exact sound.together_set (fun q => sound.together p q) le_rfl
  · intro q
    have logged := sound.logged q
    unfold Local.Logged at logged ⊢
    by_cases same : q = p
    · subst same
      simp only [State.take, State.set, Function.update_self, Local.receive]
      rw [on_append, logged, on_cons, if_pos arrived, on_nil, List.append_assoc]
    · have elsewhere : chunk.dst ≠ q := fun equal => same (equal.symm.trans arrived)
      simp only [State.take, State.set, Function.update_of_ne same]
      rw [on_append, logged, on_cons, if_neg elsewhere, on_nil, List.append_nil]

theorem leave (sound : Sound plan state) {p : Fin n} (testing : (state.process p).phase = .testing)
    (active : (state.process p).barrierActive = true)
    (all : ∀ q, (state.process p).barriers ≤ (state.process q).barriers) :
    Sound plan (state.set p (state.process p).leave) := by
  have fine := sound.fine p
  have stored := sound.stored p
  have inside : (state.process p).phase ≠ .outside := by simp [testing]
  have empty := fine.active active
  have barriers : (state.process p).barriers = (state.process p).call + 1 := by
    rw [fine.barriers, active]
    rfl
  have next : (state.process p).leave.call = (state.process p).call + 1 := by
    simp [Local.leave, Local.call]
  have done : Local.Advances plan p (state.process p) (state.process p).leave [] := by
    apply Local.advances_of_unsent
    funext call mesg
    rcases lt_trichotomy call (state.process p).call with past | rfl | later
    · rw [Local.unsent_of_gt past, Local.unsent_of_gt (by omega)]
    · rw [Local.unsent_of_inside inside, empty, Local.unsent_of_gt (by omega)]
      rfl
    · rw [Local.unsent_of_lt later]
      rcases Nat.eq_or_lt_of_le (show (state.process p).leave.call ≤ call by omega) with
        equal | beyond
      · subst equal
        exact Local.unsent_of_outside rfl
      · exact Local.unsent_of_lt beyond
  refine ⟨sound.conserved, forall_set sound.fine ?_, forall_set sound.stored ?_, ?_, ?_, ?_,
    forall_set sound.logged ?_⟩
  · refine ⟨fine.distinct, ?_, fine.pending, fun _ => ⟨empty, rfl, rfl⟩, by simp [Local.leave], ?_⟩
    · intro entry listed
      have listed' : entry ∈ (state.process p).entries := listed
      rw [empty] at listed'
      cases listed'
    · rw [next]
      exact barriers
  · rcases stored.inside inside with ⟨recvData, received, _⟩
    refine ⟨fun outside => absurd rfl outside, ?_⟩
    intro result member
    rcases List.mem_append.mp member with earlier | now
    · exact stored.results result earlier
    · obtain rfl := List.mem_singleton.mp now
      exact ⟨recvData, received⟩
  · have tally := sound.tally_set done
    simp only [List.append_nil] at tally
    exact tally
  · exact sound.requests_set fun entry listed _ _ _ => listed
  · refine sound.together_set (fun q => ?_) le_rfl
    have entered := all q
    omega
  · have logged := sound.logged p
    unfold Local.Logged at logged ⊢
    simp [State.set, Local.leave, logged]

theorem step (sound : Sound plan state) {action : Action n Byte} {after : State n Byte}
    (step : Step plan state action after) : Sound plan after := by
  cases step with
  | start between more => exact sound.start between
  | probe probing => exact sound.proceed (by simp [probing]) (by simp)
  | receive probing arrived next room => exact sound.receive probing arrived next room
  | overflow probing arrived next full => exact sound.proceed (by simp [probing]) (by simp)
  | test testing sending completed => exact sound.test testing sending completed
  | wait testing active => exact sound.proceed (by simp [testing]) (by simp)
  | leave testing active all => exact sound.leave testing active all

end Sound

theorem sound_of_reachable {plan : Plan n Byte} {permitted : State n Byte → Action n Byte → Prop}
    {state : State n Byte} (run : Reachable plan permitted state) : Sound plan state :=
  run.invariant (Sound.initial plan) fun _ _ _ sound _ step => sound.step step

namespace Chunk

/-- The call and the process that the chunk is meant for. -/
def target (chunk : Chunk n Byte) : ℕ × Fin n := (chunk.call, chunk.dst)

end Chunk

namespace Plan

variable {plan : Plan n Byte} {call mesg : ℕ} {src dst : Fin n}

theorem message_labelled : ∀ chunk ∈ plan.message call src mesg,
    chunk.message = (src, call, mesg) ∧
      ∃ send, (plan.exchange call src).sends[mesg]? = some send ∧ chunk.dst = send.pid := by
  intro chunk member
  unfold Plan.message at member
  cases found : (plan.exchange call src).sends[mesg]? with
  | none =>
      rw [found] at member
      cases member
  | some send =>
      rw [found] at member
      have key := labelled chunk member
      exact ⟨key.1, send, rfl, key.2⟩

theorem mem_addressed : (src, mesg) ∈ plan.addressed call dst ↔
    ∃ send, (plan.exchange call src).sends[mesg]? = some send ∧ send.pid = dst := by
  unfold addressed
  simp only [List.mem_flatMap, List.mem_finRange, true_and, List.mem_map, List.mem_filter,
    decide_eq_true_eq, Prod.mk.injEq]
  constructor
  · rintro ⟨src', ⟨send, mesg'⟩, ⟨listed, goal⟩, rfl, rfl⟩
    exact ⟨send, List.mem_zipIdx_iff_getElem?.mp listed, goal⟩
  · rintro ⟨send, found, goal⟩
    exact ⟨src, (send, mesg), ⟨List.mem_zipIdx_iff_getElem?.mpr found, goal⟩, rfl, rfl⟩

theorem addressed_nodup : (plan.addressed call dst).Nodup := by
  unfold addressed
  apply List.nodup_flatMap.mpr
  constructor
  · intro src _
    have indices : ((plan.exchange call src).sends.zipIdx.map Prod.snd).Nodup := by
      rw [List.zipIdx_map_snd]
      exact List.nodup_range'
    have some_indices := indices.sublist (List.filter_sublist (p := fun send =>
      decide (send.1.pid = dst)) |>.map Prod.snd)
    have paired := some_indices.map (Prod.mk_right_injective src)
    rwa [List.map_map] at paired
  · apply (List.nodup_finRange n).imp
    intro a b distinct
    simp only [Function.onFun, List.disjoint_left, List.mem_map]
    rintro _ ⟨x, _, rfl⟩ ⟨y, _, same⟩
    exact distinct (congrArg Prod.fst same).symm

/-- The chunks for a process, message by message. -/
theorem on_incoming {call' : ℕ} :
    on Chunk.message (src, call', mesg) (plan.incoming call dst) =
      on Chunk.target (call, dst) (plan.message call' src mesg) := by
  have batches : ∀ item ∈ plan.addressed call dst, ∀ chunk ∈ plan.message call item.1 item.2,
      chunk.message = (item.1, call, item.2) :=
    fun item _ chunk member => (message_labelled chunk member).1
  by_cases same : call' = call
  · subst same
    by_cases addressed : (src, mesg) ∈ plan.addressed call' dst
    · have keys : ((plan.addressed call' dst).map fun item => (item.1, call', item.2)).Nodup := by
        apply addressed_nodup.map
        rintro ⟨a, i⟩ ⟨b, j⟩ equal
        simpa using equal
      have all : ∀ chunk ∈ plan.message call' src mesg, chunk.target = (call', dst) := by
        intro chunk member
        rcases message_labelled chunk member with ⟨key, send, found, goal⟩
        rcases mem_addressed.mp addressed with ⟨send', found', goal'⟩
        obtain rfl : send = send' := Option.some.inj (found.symm.trans found')
        simp only [Chunk.message, Prod.mk.injEq] at key
        simp [Chunk.target, key.2.1, goal, goal']
      rw [on_eq_self all]
      exact on_flatMap batches keys addressed
    · have none : ∀ chunk ∈ plan.message call' src mesg, chunk.target ≠ (call', dst) := by
        intro chunk member same
        rcases message_labelled chunk member with ⟨key, send, found, goal⟩
        have toDst : chunk.dst = dst := congrArg Prod.snd same
        exact addressed (mem_addressed.mpr ⟨send, found, goal.symm.trans toDst⟩)
      rw [on_eq_nil none]
      apply on_flatMap_of_not_mem batches
      intro item listed same
      simp only [Prod.mk.injEq, true_and] at same
      obtain ⟨rfl, rfl⟩ := same
      exact addressed listed
  · have none : ∀ chunk ∈ plan.message call' src mesg, chunk.target ≠ (call, dst) := by
      intro chunk member equal
      have key := (message_labelled chunk member).1
      simp only [Chunk.message, Prod.mk.injEq] at key
      exact same (key.2.1.symm.trans (congrArg Prod.fst equal))
    rw [on_eq_nil none]
    apply on_flatMap_of_not_mem batches
    intro item _ equal
    simp only [Prod.mk.injEq] at equal
    exact same equal.2.1.symm

end Plan

namespace Sound

variable {plan : Plan n Byte} {state : State n Byte}

/-- Who has entered a barrier has nothing in flight any more. -/
theorem barriers_le (sound : Sound plan state) {chunk : Chunk n Byte}
    (member : chunk ∈ state.inFlight) : (state.process chunk.src).barriers ≤ chunk.call := by
  have fine := sound.fine chunk.src
  rcases sound.requests chunk member with ⟨entry, listed, _⟩
  have sending : (state.process chunk.src).barrierActive = false := by
    cases active : (state.process chunk.src).barrierActive with
    | false => rfl
    | true =>
        rw [fine.active active] at listed
        cases listed
  rw [sound.call_eq member, fine.barriers, sending]
  rfl

theorem posted_of_entered (sound : Sound plan state) {call : ℕ} {q : Fin n}
    (entered : call < (state.process q).barriers) (mesg : ℕ) :
    on Chunk.message (q, call, mesg) state.posted = plan.message call q mesg := by
  have fine := sound.fine q
  have barriers := fine.barriers
  have nothing : (state.process q).unsent plan q call mesg = [] := by
    rcases Nat.lt_or_ge call (state.process q).call with past | now
    · exact Local.unsent_of_gt past
    · cases active : (state.process q).barrierActive with
      | false =>
          rw [active] at barriers
          have same : (state.process q).barriers = (state.process q).call := barriers
          omega
      | true =>
          rw [active] at barriers
          have same : (state.process q).barriers = (state.process q).call + 1 := barriers
          obtain rfl : call = (state.process q).call := by omega
          have inside : (state.process q).phase ≠ .outside := by
            intro outside
            rw [(fine.outside outside).2.1] at active
            cases active
          rw [Local.unsent_of_inside inside, fine.active active]
          rfl
  rw [← sound.tally q call mesg, nothing, List.append_nil]

theorem posted_subperm (sound : Sound plan state) (call : ℕ) (dst : Fin n) :
    (on Chunk.target (call, dst) state.posted).Subperm (plan.incoming call dst) := by
  apply subperm_of_on Chunk.message
  rintro ⟨src, call', mesg⟩
  rw [on_comm, Plan.on_incoming, ← sound.tally src call' mesg, on_append]
  exact (List.sublist_append_left _ _).subperm

theorem posted_perm (sound : Sound plan state) {call : ℕ}
    (entered : ∀ q, call < (state.process q).barriers) (dst : Fin n) :
    (on Chunk.target (call, dst) state.posted).Perm (plan.incoming call dst) := by
  apply perm_of_on Chunk.message
  rintro ⟨src, call', mesg⟩
  rw [on_comm, Plan.on_incoming]
  by_cases same : call' = call
  · rw [same, sound.posted_of_entered (entered src) mesg]
  · have none : ∀ chunk : Chunk n Byte, chunk.message = (src, call', mesg) →
        chunk.target ≠ (call, dst) := by
      intro chunk key equal
      simp only [Chunk.message, Prod.mk.injEq] at key
      exact same (key.2.1.symm.trans (congrArg Prod.fst equal))
    rw [on_eq_nil fun chunk member => none chunk (mem_on.mp member).2,
      on_eq_nil fun chunk member => none chunk (Plan.message_labelled chunk member).1]

/-- When everybody has entered the barrier of a call, all its chunks have been received. -/
theorem taken_perm (sound : Sound plan state) {call : ℕ}
    (entered : ∀ q, call < (state.process q).barriers) (dst : Fin n) :
    (on Chunk.target (call, dst) state.taken).Perm (plan.incoming call dst) := by
  have whole := (perm_on sound.conserved.perm (call, dst)).symm.trans
    (sound.posted_perm entered dst)
  have landed : on Chunk.target (call, dst) state.inFlight = [] := by
    apply on_eq_nil
    intro chunk member target
    have late := sound.barriers_le member
    have same : chunk.call = call := congrArg Prod.fst target
    have early := entered chunk.src
    omega
  rwa [on_append, landed, List.append_nil] at whole

end Sound

end AllToAll

end Talpf
