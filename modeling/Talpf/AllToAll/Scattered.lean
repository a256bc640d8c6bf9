import Talpf.AllToAll.Completion
import Talpf.AllToAll.Contiguity

/-!
# Messages that arrive in several pieces

If a message of several chunks has another message to the same process beside
it or behind it, then the receiver may receive a chunk of the other one between
its chunks.  The run that shows this lets all processes begin, delivers first
chunks only, and completes the exchange in some way.
-/

namespace Talpf

namespace AllToAll

universe u

variable {n : ℕ} {Byte : Type u} {plan : Plan n Byte} {state : State n Byte}

open Channels

/-- Some processes have begun the call, one after the other, and nothing else has happened. -/
def State.begun (plan : Plan n Byte) (started : List (Fin n)) : State n Byte where
  process p := if p ∈ started then Local.initial.start plan p else .initial
  inFlight := started.flatMap plan.firsts
  posted := started.flatMap plan.firsts
  taken := []

theorem reachable_begun (single : plan.calls = 1) {started : List (Fin n)}
    (distinct : started.Nodup) : Reachable plan (fun _ _ => True) (State.begun plan started) := by
  induction started using List.reverseRecOn with
  | nil => exact .refl
  | append_singleton earlier p ih =>
      have fresh : p ∉ earlier := fun member =>
        (List.nodup_append.mp distinct).2.2 p member p (by simp) rfl
      have idle : (State.begun plan earlier).process p = .initial := if_neg fresh
      have outside : ((State.begun plan earlier).process p).phase = .outside := by
        rw [idle]
        rfl
      have more : ((State.begun plan earlier).process p).call < plan.calls := by
        rw [idle, single]
        exact Nat.zero_lt_one
      have run := (ih (List.nodup_append.mp distinct).1).free (.start outside more)
      rw [idle] at run
      have same : ((State.begun plan earlier).set p (Local.initial.start plan p)).post
          ((Local.initial.opened plan p).flatMap Prod.snd) = State.begun plan (earlier ++ [p]) := by
        unfold State.begun State.set State.post
        simp only [State.mk.injEq, List.flatMap_append, List.flatMap_singleton]
        refine ⟨?_, rfl, rfl, trivial⟩
        funext q
        by_cases now : q = p
        · subst now
          simp
        · simp [now]
      exact same ▸ run

theorem drain (single : plan.calls = 1) (fits : plan.Fits) {src dst : Fin n}
    {queue : List (Chunk n Byte)} (run : Reachable plan (fun _ _ => True) state)
    (inside : (state.process dst).phase ≠ .outside)
    (waiting : on Chunk.route (src, dst) state.inFlight = queue) :
    ∃ after, Leads plan state after ∧ (after.process dst).phase ≠ .outside ∧
      on Chunk.dst dst after.taken = on Chunk.dst dst state.taken ++ queue ∧
      ∀ other, other ≠ src →
        on Chunk.route (other, dst) after.inFlight =
          on Chunk.route (other, dst) state.inFlight := by
  induction queue generalizing state with
  | nil => exact ⟨state, .refl, inside, (List.append_nil _).symm, fun _ _ => rfl⟩
  | cons chunk queue ih =>
      rcases receive_first single run fits inside waiting with
        ⟨process, rest, next, leads, there, _⟩
      have route : chunk.route = (src, dst) :=
        (mem_on.mp (waiting ▸ List.mem_cons_self : chunk ∈ on Chunk.route _ state.inFlight)).2
      have arrived : chunk.dst = dst := congrArg Prod.snd route
      have still : (((state.set dst process).take chunk rest).process dst).phase ≠ .outside := by
        simpa [State.set, State.take] using there
      have later : on Chunk.route (src, dst) rest = queue := by
        have self := next.on_self
        rw [route, waiting] at self
        exact (List.cons.inj self).2.symm
      rcases ih (leads.reachable run) still later with ⟨after, onwards, within, taken, others⟩
      refine ⟨after, leads.trans onwards, within, ?_, ?_⟩
      · rw [taken]
        simp only [State.set, State.take]
        rw [on_append, on_cons, if_pos arrived, List.append_assoc]
        rfl
      · intro other apart
        rw [others other apart]
        simp only [State.set, State.take]
        refine (next.on_other ?_).symm
        rw [route]
        intro same
        exact apart (congrArg Prod.fst same).symm

/-- What has been received stays received. -/
theorem Leads.taken {after : State n Byte} (leads : Leads plan state after) :
    state.taken <+: after.taken := by
  induction leads with
  | refl => exact List.prefix_rfl
  | tail earlier next ih =>
      rcases next with ⟨action, _, step⟩
      cases step with
      | receive probing arrived taken room => exact ih.trans (List.prefix_append _ _)
      | _ => exact ih

/-- The messages whose first chunks are received first: those of the one sender, then those of
the other. -/
def Plan.early (plan : Plan n Byte) (dst first second : Fin n) : List (Fin n × ℕ) :=
  plan.between first dst ++ if second = first then [] else plan.between second dst

theorem early_of_fits (single : plan.calls = 1) (fits : plan.Fits) (dst first second : Fin n) :
    ∃ state, Reachable plan (fun _ _ => True) state ∧
      on Chunk.dst dst state.taken =
        (plan.early dst first second).flatMap fun message => (plan.pieces message).take 1 := by
  have run := reachable_begun single (List.nodup_finRange n)
  have inside : ((State.begun plan (List.finRange n)).process dst).phase ≠ .outside := by
    simp [State.begun, Local.start]
  have waiting : ∀ src, on Chunk.route (src, dst) (State.begun plan (List.finRange n)).inFlight =
      (plan.between src dst).flatMap fun message => (plan.pieces message).take 1 := by
    intro src
    have own : ∀ src ∈ List.finRange n, ∀ chunk ∈ plan.firsts src, chunk.src = id src := by
      intro src _ chunk member
      have advances : Local.Advances plan src Local.initial _ _ := Local.start_advances rfl
      exact advances.1 chunk member
    have distinct : ((List.finRange n).map id).Nodup := by simpa using List.nodup_finRange n
    rw [on_route, ← Plan.firsts_between]
    exact congrArg _ (on_flatMap own distinct (List.mem_finRange src))
  rcases drain single fits run inside (waiting first) with ⟨half, leads, within, taken, others⟩
  have nothing : on Chunk.dst dst (State.begun plan (List.finRange n)).taken = [] := rfl
  rw [nothing, List.nil_append] at taken
  by_cases same : second = first
  · refine ⟨half, leads.reachable run, ?_⟩
    rw [taken, Plan.early, if_pos same, List.append_nil]
  · have rest := (others second same).trans (waiting second)
    rcases drain single fits (leads.reachable run) within rest with ⟨after, onwards, _, all, _⟩
    refine ⟨after, (leads.trans onwards).reachable run, ?_⟩
    rw [all, taken, Plan.early, if_neg same, List.flatMap_append]

theorem early_nodup (dst first second : Fin n) : (plan.early dst first second).Nodup := by
  have between : ∀ src, (plan.between src dst).Nodup := by
    intro src
    rw [Plan.between_eq]
    exact Plan.addressed_nodup.sublist List.filter_sublist
  unfold Plan.early
  split
  · rw [List.append_nil]
    exact between first
  · rename_i apart
    apply List.nodup_append.mpr
    refine ⟨between first, between second, ?_⟩
    rintro message inFirst other inSecond rfl
    exact apart ((Plan.mem_between.mp inSecond).1.symm.trans (Plan.mem_between.mp inFirst).1)

/-- The other message comes behind the large one among those that are received first. -/
theorem early_split {dst : Fin n} {large other : Fin n × ℕ}
    (addressed : large ∈ plan.addressed 0 dst) (beside : other ∈ plan.addressed 0 dst)
    (order : other.1 = large.1 → large.2 < other.2) :
    ∃ before after, plan.early dst large.1 other.1 = before ++ large :: after ∧
      other ∈ after := by
  have member : large ∈ plan.between large.1 dst := Plan.mem_between.mpr ⟨rfl, addressed⟩
  have member' : other ∈ plan.between other.1 dst := Plan.mem_between.mpr ⟨rfl, beside⟩
  obtain ⟨before, after, parts⟩ := List.append_of_mem member
  unfold Plan.early
  by_cases same : other.1 = large.1
  · refine ⟨before, after, by rw [if_pos same, List.append_nil, parts], ?_⟩
    have sorted := plan.between_sorted large.1 dst
    rw [same] at member'
    rw [parts] at sorted member'
    rcases List.mem_append.mp member' with earlier | now
    · have wrong := (List.pairwise_append.mp sorted).2.2 other earlier large List.mem_cons_self
      exact absurd wrong (order same).not_gt
    · rcases List.mem_cons.mp now with rfl | later
      · exact absurd (order rfl) (lt_irrefl _)
      · exact later
  · refine ⟨before, after ++ plan.between other.1 dst, ?_, List.mem_append_right _ member'⟩
    rw [if_neg same, parts, List.append_assoc]
    rfl

theorem not_contiguous {dst : Fin n} {result : Result n Byte} {large other : Fin n × ℕ}
    {messages before after : List (Fin n × ℕ)} (distinct : messages.Nodup)
    (split : messages = before ++ large :: after) (behind : other ∈ after)
    (addressed : large ∈ plan.addressed 0 dst) (size : plan.maxMsgSize < plan.count large)
    (nonempty : 0 < plan.count other)
    (received : (messages.flatMap fun message => (plan.pieces message).take 1) <+: result.log) :
    ¬Contiguous plan dst result := by
  rintro ⟨order, shuffled, log, _⟩
  obtain ⟨head, chunk, rest, pieces⟩ : ∃ head chunk rest,
      plan.pieces large = head :: chunk :: rest := by
    have several := Plan.drop_pieces.not.mpr size.not_ge
    cases pieces : plan.pieces large with
    | nil => simp [pieces] at several
    | cons head rest =>
        cases rest with
        | nil => simp [pieces] at several
        | cons chunk rest => exact ⟨head, chunk, rest, rfl⟩
  have labelled : ∀ message, ∀ chunk ∈ plan.pieces message,
      chunk.message = (message.1, 0, message.2) :=
    fun message chunk member => (Plan.message_labelled chunk member).1
  have apart : ∀ {messages : List (Fin n × ℕ)}, large ∉ messages → ∀ {batch},
      (∀ message, batch message ⊆ plan.pieces message) → ∀ chunk ∈ messages.flatMap batch,
        chunk.message ≠ (large.1, 0, large.2) := by
    intro messages absent batch part chunk member same
    rcases List.mem_flatMap.mp member with ⟨message, listed, piece⟩
    have key := (labelled message chunk (part message piece)).symm.trans same
    simp only [Prod.mk.injEq, true_and] at key
    exact absent (Prod.ext key.1 key.2 ▸ listed)
  have first : head.message = (large.1, 0, large.2) := labelled large head (by simp [pieces])
  have next : chunk.message = (large.1, 0, large.2) := labelled large chunk (by simp [pieces])
  -- in one piece, the second chunk of the large message follows on its first one
  obtain ⟨left, right, around⟩ := List.append_of_mem (shuffled.mem_iff.mpr addressed)
  have whole := shuffled.nodup_iff.mpr Plan.addressed_nodup
  rw [around] at whole log
  rw [List.flatMap_append, List.flatMap_cons, pieces] at log
  have fresh : large ∉ left := fun member =>
    (List.nodup_append.mp whole).2.2 large member large List.mem_cons_self rfl
  -- but what follows is the first chunk of another message
  obtain ⟨remaining, extended⟩ := received
  rw [split, List.flatMap_append, List.flatMap_cons, pieces, List.append_assoc,
    List.append_assoc, log] at extended
  rw [split] at distinct
  have before_fresh : large ∉ before := fun member =>
    (List.nodup_append.mp distinct).2.2 large member large List.mem_cons_self rfl
  have after_fresh : large ∉ after := (List.nodup_cons.mp (List.nodup_append.mp distinct).2.1).1
  have tails := tail_eq_of_first (apart before_fresh fun _ => List.take_subset 1 _)
    (apart fresh fun _ => List.Subset.refl _) first first extended
  have some : (after.flatMap fun message => (plan.pieces message).take 1) ≠ [] := by
    intro none
    have empty := List.flatMap_eq_nil_iff.mp none other behind
    have pieces : plan.pieces other ≠ [] := Plan.pieces_eq_nil.not.mpr nonempty.ne'
    simp [pieces] at empty
  obtain ⟨foreign, others, follows⟩ := List.exists_cons_of_ne_nil some
  rw [follows] at tails
  have same : foreign = chunk := (List.cons.inj tails).1
  refine apart after_fresh (fun message => List.take_subset 1 (plan.pieces message)) foreign ?_
    (same ▸ next)
  rw [follows]
  exact List.mem_cons_self

theorem exists_scattered (single : plan.calls = 1) (fits : plan.Fits) {dst : Fin n}
    {large other : Fin n × ℕ} (addressed : large ∈ plan.addressed 0 dst)
    (size : plan.maxMsgSize < plan.count large) (beside : other ∈ plan.addressed 0 dst)
    (nonempty : 0 < plan.count other) (order : other.1 = large.1 → large.2 < other.2) :
    ∃ state, Reachable plan (fun _ _ => True) state ∧ ∃ result ∈ (state.process dst).results,
      (plan.early dst large.1 other.1).flatMap (fun message => (plan.pieces message).take 1) <+:
        result.log ∧ ¬Contiguous plan dst result := by
  rcases early_of_fits single fits dst large.1 other.1 with ⟨state, run, taken⟩
  rcases can_complete single fits run with ⟨after, leads, finished⟩
  have runThere := leads.reachable run
  obtain ⟨result, member⟩ := List.exists_mem_of_ne_nil _ (finished dst)
  have returned := returned_of_mem single runThere member
  have received : on Chunk.dst dst state.taken <+: on Chunk.dst dst after.taken :=
    leads.taken.filter _
  rw [returned.log, taken] at received
  rcases early_split addressed beside order with ⟨first, last, split, behind⟩
  exact ⟨after, runThere, result, member, received,
    not_contiguous (early_nodup _ _ _) split behind addressed size nonempty received⟩

theorem received_le (single : plan.calls = 1) (run : Reachable plan (fun _ _ => True) state)
    (dst : Fin n) :
    ((on Chunk.dst dst state.taken).flatMap Chunk.bytes).length ≤
      (plan.exchange 0 dst).recvSize := by
  let Holds (p : Fin n) (process : Local n Byte) : Prop :=
    ∀ call result, process.results[call]? = some result →
      result.received ≤ (plan.exchange call p).recvSize
  have all : ∀ p, Holds p (state.process p) := by
    induction run with
    | refl => exact fun p call result found => by simp [State.initial, Local.initial] at found
    | @tail before after earlier next ih =>
        rcases next with ⟨action, _, step⟩
        cases step with
        | start | probe | receive | overflow | wait => exact Sound.forall_set ih (ih _)
        | @test p ready testing sending completed =>
            refine Sound.forall_set ih ?_
            simp only [Holds, Local.test_results]
            exact ih p
        | @leave p testing active all =>
            refine Sound.forall_set ih ?_
            intro call result found
            rcases ((sound_of_reachable earlier).stored p).inside (by simp [testing]) with
              ⟨_, _, whole⟩
            simp only [Local.leave] at found
            rcases lt_trichotomy call (before.process p).results.length with past | rfl | beyond
            · rw [List.getElem?_append_left past] at found
              exact ih p call result found
            · rw [List.getElem?_concat_length] at found
              obtain rfl := Option.some.inj found
              unfold Local.call at whole
              dsimp only
              omega
            · rw [List.getElem?_eq_none (by simp; omega)] at found
              cases found
  have sound := sound_of_reachable run
  have logged := sound.logged dst
  have bound := call_le_of_reachable run dst
  unfold Local.Logged at logged
  unfold Local.call at bound
  by_cases outside : (state.process dst).phase = .outside
  · rw [((sound.fine dst).outside outside).2.2, List.append_nil] at logged
    rw [logged]
    rw [if_pos outside, single] at bound
    cases results : (state.process dst).results with
    | nil => simp
    | cons result rest =>
        rw [results] at bound
        have none : rest = [] := by
          apply List.eq_nil_of_length_eq_zero
          simpa using bound
        subst none
        have stored := (sound.stored dst).results result (by simp [results])
        rw [List.flatMap_singleton, ← stored.1, ← stored.2]
        exact all dst 0 result (by simp [results])
  · rw [if_neg outside, single] at bound
    have none : (state.process dst).results = [] := by
      apply List.eq_nil_of_length_eq_zero
      omega
    rcases (sound.stored dst).inside outside with ⟨recvData, received, whole⟩
    rw [logged, none, List.flatMap_nil, List.nil_append, ← recvData, ← received]
    unfold Local.call at whole
    rw [none] at whole
    exact (Nat.le_add_left _ _).trans whole.le

theorem fits_of_returned (single : plan.calls = 1) (run : Reachable plan (fun _ _ => True) state)
    {p : Fin n} {result : Result n Byte} (member : result ∈ (state.process p).results) :
    plan.Fits := by
  have sound := sound_of_reachable run
  have entered : ∀ q, 0 < (state.process q).barriers := fun q =>
    lt_of_lt_of_le (List.length_pos_of_mem member) (sound.together p q)
  intro call bound dst
  rw [single] at bound
  obtain rfl : call = 0 := Nat.lt_one_iff.mp bound
  have whole := ((sound.taken_perm entered dst).flatMap_right Chunk.bytes).length_eq
  rw [plan.length_incoming] at whole
  have part : on Chunk.target (0, dst) state.taken = on Chunk.dst dst state.taken := by
    apply List.filter_congr
    intro chunk taken
    have posted := sound.conserved.perm.mem_iff.mpr (List.mem_append_left _ taken)
    simp [Chunk.target, posted_call single run posted]
  rw [part] at whole
  exact whole ▸ received_le single run dst

theorem contiguous_iff (single : plan.calls = 1) :
    (∀ state, Reachable plan (fun _ _ => True) state →
      ∀ dst, ∀ result ∈ (state.process dst).results, Contiguous plan dst result) ↔
    plan.Orderly ∨ ¬plan.Fits := by
  constructor
  · intro contiguous
    by_contra neither
    obtain ⟨scattered, enough⟩ := not_or.mp neither
    have fits := not_not.mp enough
    unfold Plan.Orderly at scattered
    push Not at scattered
    obtain ⟨dst, large, addressed, size, other, beside, apart, nonempty, wrong⟩ := scattered
    have found : ∃ state, Reachable plan (fun _ _ => True) state ∧
        ∃ result ∈ (state.process dst).results, ¬Contiguous plan dst result := by
      by_cases ahead : other.1 = large.1 ∧ other.2 < large.2
      · -- the other message is large, too, and it is the first one that suffers
        have also := wrong ahead.1 ahead.2
        rcases exists_scattered single fits beside also addressed (by omega)
          (fun _ => ahead.2) with ⟨state, run, result, member, _, pieces⟩
        exact ⟨state, run, result, member, pieces⟩
      · have behind : other.1 = large.1 → large.2 < other.2 := by
          intro same
          have different : other.2 ≠ large.2 := fun equal => apart (Prod.ext same equal)
          have notBefore : ¬other.2 < large.2 := fun less => ahead ⟨same, less⟩
          omega
        rcases exists_scattered single fits addressed size beside nonempty behind with
          ⟨state, run, result, member, _, pieces⟩
        exact ⟨state, run, result, member, pieces⟩
    obtain ⟨state, run, result, member, pieces⟩ := found
    exact pieces (contiguous state run dst result member)
  · rintro (orderly | full) state run dst result member
    · exact contiguous_of_orderly single orderly run member
    · exact absurd (fits_of_returned single run member) full

/-- A message of two bytes, and after it one of one byte. -/
def split : Plan 2 ℕ where
  maxMsgSize := 1
  max_pos := Nat.zero_lt_one
  calls := 1
  exchange _ p :=
    ⟨fun i => 7 + i, if p.val = 1 then
      [⟨0, 2, ⟨0, Nat.zero_lt_two⟩⟩, ⟨2, 1, ⟨0, Nat.zero_lt_two⟩⟩] else [], 3⟩

/-- In the opposite order, both messages arrive in one piece. -/
def unsplit : Plan 2 ℕ where
  maxMsgSize := 1
  max_pos := Nat.zero_lt_one
  calls := 1
  exchange _ p :=
    ⟨fun i => 7 + i, if p.val = 1 then
      [⟨2, 1, ⟨0, Nat.zero_lt_two⟩⟩, ⟨0, 2, ⟨0, Nat.zero_lt_two⟩⟩] else [], 3⟩

theorem contiguous_iff_unsplit :
    unsplit.Orderly ∧ ∀ state, Reachable unsplit (fun _ _ => True) state →
      ∀ dst, ∀ result ∈ (state.process dst).results, Contiguous unsplit dst result := by
  have orderly : unsplit.Orderly := by
    unfold Plan.Orderly
    decide
  exact ⟨orderly, (contiguous_iff rfl).mpr (Or.inl orderly)⟩

/-- The bytes received are not those of the two messages one after the other. -/
theorem not_contiguous_split :
    ∃ state, Reachable split (fun _ _ => True) state ∧ ∃ result ∈ (state.process 0).results,
      ∀ order : List (Fin 2 × ℕ), order.Perm (split.addressed 0 0) →
        result.recvData ≠ order.flatMap split.contents := by
  have fits : split.Fits := by
    intro call bound dst
    obtain rfl : call = 0 := Nat.lt_one_iff.mp bound
    revert dst
    decide
  have addressed : split.addressed 0 0 = [(1, 0), (1, 1)] := by decide
  have first : (1, 0) ∈ split.addressed 0 0 := by simp [addressed]
  have second : (1, 1) ∈ split.addressed 0 0 := by simp [addressed]
  rcases exists_scattered rfl fits first (by decide) second (by decide) (fun _ => Nat.zero_lt_one)
    with ⟨state, run, result, member, ⟨rest, received⟩, _⟩
  refine ⟨state, run, result, member, fun order shuffled together => ?_⟩
  have recvData := (returned_of_mem rfl run member).recvData
  have early : split.early 0 1 1 = split.between 1 0 := List.append_nil _
  have firsts : (on Chunk.dst 0 (split.firsts 1)).flatMap Chunk.bytes = [7, 9] := by decide
  rw [early, ← Plan.firsts_between] at received
  rw [← received, List.flatMap_append, firsts, together] at recvData
  rw [addressed] at shuffled
  obtain ⟨x, y, rfl⟩ := List.length_eq_two.mp shuffled.length_eq
  have orders : (x = (1, 0) ∧ y = (1, 1)) ∨ (x = (1, 1) ∧ y = (1, 0)) := by
    have distinct : x ≠ y := by simpa using shuffled.nodup_iff.mpr (by simp)
    have one : x ∈ [(1, 0), (1, 1)] := shuffled.mem_iff.mp (by simp)
    have two : y ∈ [(1, 0), (1, 1)] := shuffled.mem_iff.mp (by simp)
    simp only [List.mem_cons, List.not_mem_nil, or_false] at one two
    rcases one with rfl | rfl <;> rcases two with rfl | rfl <;> simp at distinct ⊢
  have whole : split.contents (1, 0) = [7, 8] ∧ split.contents (1, 1) = [9] := by decide
  rcases orders with ⟨rfl, rfl⟩ | ⟨rfl, rfl⟩
  · simp [whole] at recvData
  · simp [whole] at recvData

end AllToAll

end Talpf
