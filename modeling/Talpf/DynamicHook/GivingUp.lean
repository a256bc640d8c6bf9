import Mathlib.Algebra.BigOperators.Group.List.Basic
import Mathlib.Algebra.Group.Int.Defs
import Mathlib.Algebra.GroupWithZero.Nat
import Talpf.DynamicHook.Accepting

/-!
# Giving up on clients

The server of a hook opens its sockets, accepts its clients and sends each of
them a word that tells whether all are there.  The timeout ends the first of the
three: what remains of it is only the timeout of the next poll afterwards.
-/

namespace Talpf

namespace DynamicHook

/-- The timeout of a poll in milliseconds, from the nanoseconds that remain -/
def pollTimeout (remaining : ℤ) : ℤ := remaining.tdiv 1000000

/-- The timeout of a poll is negative from a millisecond after the deadline on. -/
theorem pollTimeout_neg {remaining : ℤ} : pollTimeout remaining < 0 ↔ remaining ≤ -1000000 := by
  rw [pollTimeout]
  rcases Int.le_total 0 remaining with left | past
  · rw [Int.tdiv_eq_ediv_of_nonneg left]
    omega
  · obtain ⟨since, rfl⟩ : ∃ since, remaining = -since := ⟨-remaining, by omega⟩
    rw [Int.neg_tdiv, Int.tdiv_eq_ediv_of_nonneg (by omega)]
    omega

/-- What a server meets.  The times are in nanoseconds. -/
structure Surroundings where
  timeout : ℤ
  t0 : ℤ
  /-- `getaddrinfo` succeeds. -/
  resolves : Bool
  /-- Some socket can be opened in a round of attempts. -/
  opens : ℕ → Bool
  /-- The clock after each round of attempts -/
  opening : ℕ → ℤ
  sockets : ℕ
  /-- The clock before each poll -/
  polling : ℕ → ℤ
  polls : ℕ → Poll sockets
  positive : 0 < sockets
  /-- The deadline passes if no socket is opened before. -/
  expires : ∃ round, timeout ≤ opening round - t0
  /-- The deadline passes if the polls return. -/
  passes : ∃ i, timeout + 1000000 ≤ polling i - t0
  /-- Only a poll with a negative timeout may fail to return. -/
  returns : ∀ i, 0 ≤ pollTimeout (timeout - (polling i - t0)) → (polls i).Returns

/-- Where a server is. -/
inductive Server where
  | opening
  | accepting (state : Accepting)
  | faulted
  /-- All clients have been sent a 1. -/
  | returned (connections : List (Option ℕ))
  /-- An exception is thrown after a 0 has been sent to some connections. -/
  | thrown (state : Accepting) (sent : List (Option ℕ))

namespace Accepting

/-- The connections that are in use. -/
def connected (state : Accepting) : List (Option ℕ) :=
  ((state.connections.zip state.success).filter Prod.snd).map Prod.fst

/-- Tell the clients whether all of them are there. -/
def finish (state : Accepting) : Server :=
  if state.success.all id then .returned state.connections else .thrown state state.connected

variable {nprocs : ℕ} {state : Accepting}

/-- The loop goes on as long as clients are missing. -/
theorem Tidy.loop_few {sockets : ℕ} (tidy : Tidy nprocs state) (polls : List (Poll sockets))
    (few : state.joined.length + (polls.map Poll.verified).sum + 1 < nprocs) :
    ∃ after, loop nprocs polls state = some after ∧ Tidy nprocs after ∧
      after.joined.length + 1 < nprocs := by
  induction polls generalizing state with
  | nil => exact ⟨state, rfl, tidy, few⟩
  | cons poll polls ih =>
      rw [List.map_cons, List.sum_cons] at few
      rw [tidy.loop_cons, if_pos (by omega)]
      cases poll with
      | ready events =>
          rcases tidy.serveAll (List.ofFn events) with
            ⟨_, after, serves, tidyAfter, joined⟩ | ⟨full, _⟩
          · dsimp only
            rw [serves, Option.bind_some]
            apply ih tidyAfter
            rw [joined, Nat.add_assoc state.joined.length]
            exact few
          · rw [Poll.verified] at few
            omega
      | timeout => exact ih tidy (by omega)
      | error => exact ih tidy (by omega)
      | blocks => exact ⟨state, rfl, tidy, by omega⟩

end Accepting

namespace Surroundings

variable (met : Surroundings)

/-- What remains of the timeout before a poll. -/
def remaining (i : ℕ) : ℤ := met.timeout - (met.polling i - met.t0)

/-- No socket is opened in a round, and another round follows. -/
def again (round : ℕ) : Bool :=
  !met.opens round && decide (met.opening round - met.t0 < met.timeout)

/-- Try to open sockets, for at most the given number of rounds.  The result tells whether
there are sockets. -/
def openSockets : ℕ → ℕ → Option Bool
  | 0, _ => none
  | rounds + 1, round =>
      if met.again round then openSockets rounds (round + 1) else some (met.opens round)

/-- The server, for at most the given number of rounds and polls. -/
def serverAcceptsClients (nprocs rounds polls : ℕ) : Server :=
  if met.resolves then
    match met.openSockets rounds 0 with
    | none => .opening
    | some true =>
        match Accepting.loop nprocs ((List.range polls).map met.polls) (.initial nprocs) with
        | none => .faulted
        | some state => if state.p < nprocs then .accepting state else state.finish
    | some false => .thrown (.initial nprocs) []
  else .thrown (.initial nprocs) []

/-- Fewer clients are verified than are expected. -/
def Few (nprocs : ℕ) : Prop :=
  ∀ count, (((List.range count).map met.polls).map Poll.verified).sum + 1 < nprocs

/-- A poll is made: all polls before it have returned, and clients are still missing. -/
def Polls (nprocs i : ℕ) : Prop :=
  (∀ earlier < i, (met.polls earlier).Returns) ∧
    ∃ rounds state, met.serverAcceptsClients nprocs rounds i = .accepting state

/-- The server ends with an exception, after it has told those who did connect, and none of its
polls after the deadline has an infinite timeout. -/
structure GivesUp (nprocs : ℕ) : Prop where
  ends : ∃ rounds polls state sent,
    met.serverAcceptsClients nprocs rounds polls = .thrown state sent ∧
      ∀ fd ∈ state.joined, some fd ∈ sent
  finite : ∀ i, met.Polls nprocs i → met.remaining i ≤ 0 → 0 ≤ pollTimeout (met.remaining i)

variable {met} {nprocs : ℕ}

/-- The last round of attempts is the first one that is not followed by another. -/
theorem openSockets_eq_some {rounds round : ℕ} {opened : Bool} :
    met.openSockets rounds round = some opened ↔ ∃ last, round ≤ last ∧ last < round + rounds ∧
      (∀ earlier, round ≤ earlier → earlier < last → met.again earlier = true) ∧
      met.again last = false ∧ met.opens last = opened := by
  induction rounds generalizing round with
  | zero =>
      refine iff_of_false nofun ?_
      rintro ⟨last, _, _, _⟩
      omega
  | succ rounds ih =>
      rw [openSockets]
      cases ends : met.again round with
      | true =>
          rw [if_pos rfl, ih]
          constructor
          · rintro ⟨last, above, below, before, found⟩
            refine ⟨last, by omega, by omega, fun earlier start stop => ?_, found⟩
            rcases Nat.eq_or_lt_of_le start with rfl | later
            · exact ends
            · exact before earlier later stop
          · rintro ⟨last, above, below, before, stops, opened⟩
            have later : round ≠ last := by
              rintro rfl
              rw [ends] at stops
              cases stops
            exact ⟨last, by omega, by omega, fun earlier start => before earlier (by omega),
              stops, opened⟩
      | false =>
          rw [if_neg Bool.false_ne_true, Option.some.injEq]
          constructor
          · intro opened
            exact ⟨round, le_rfl, by omega, fun earlier start stop => by omega, ends, opened⟩
          · rintro ⟨last, above, below, before, _, opened⟩
            rcases Nat.eq_or_lt_of_le above with rfl | later
            · exact opened
            · rw [before round le_rfl later] at ends
              cases ends

/-- Another round follows if nothing is opened before the deadline. -/
theorem again_iff {round : ℕ} : met.again round = true ↔
    met.opens round = false ∧ met.opening round - met.t0 < met.timeout := by
  rw [again, Bool.and_eq_true, Bool.not_eq_true', decide_eq_true_iff]

/-- No socket can be opened in a round that begins before the deadline. -/
def Closed (met : Surroundings) : Prop :=
  ∀ round, (∀ earlier < round, met.opening earlier - met.t0 < met.timeout) →
    met.opens round = false

/-- The attempts end without a socket if and only if there is none to be had before the
deadline. -/
theorem openSockets_iff : (∃ rounds, met.openSockets rounds 0 = some false) ↔ met.Closed := by
  constructor
  · rintro ⟨rounds, ends⟩ round early
    rcases openSockets_eq_some.mp ends with ⟨last, _, _, before, stops, opened⟩
    rcases Nat.lt_trichotomy round last with earlier | rfl | later
    · exact (again_iff.mp (before round (Nat.zero_le _) earlier)).1
    · exact opened
    · rw [again_iff.mpr ⟨opened, early last later⟩] at stops
      cases stops
  · intro closed
    let last := Nat.find met.expires
    have late : met.timeout ≤ met.opening last - met.t0 := Nat.find_spec met.expires
    have early : ∀ earlier < last, met.opening earlier - met.t0 < met.timeout :=
      fun earlier before => not_le.mp (Nat.find_min met.expires before)
    refine ⟨last + 1, openSockets_eq_some.mpr ⟨last, Nat.zero_le _, by omega, ?_, ?_,
      closed last early⟩⟩
    · intro earlier _ before
      exact again_iff.mpr ⟨closed earlier fun first less => early first (by omega),
        early earlier before⟩
    · rw [← Bool.not_eq_true, again_iff]
      exact fun follows => absurd follows.2 (not_lt.mpr late)

/-- The attempts have one result. -/
theorem openSockets_unique {rounds rounds' : ℕ} {opened opened' : Bool}
    (ends : met.openSockets rounds 0 = some opened)
    (ends' : met.openSockets rounds' 0 = some opened') : opened = opened' := by
  rcases openSockets_eq_some.mp ends with ⟨last, _, _, before, stops, rfl⟩
  rcases openSockets_eq_some.mp ends' with ⟨last', _, _, before', stops', rfl⟩
  rcases Nat.lt_trichotomy last last' with earlier | rfl | later
  · rw [before' last (Nat.zero_le _) earlier] at stops
    cases stops
  · rfl
  · rw [before last' (Nat.zero_le _) later] at stops'
    cases stops'

/-- A server with sockets goes on accepting as long as clients are missing. -/
theorem Few.accepting (few : met.Few nprocs) (resolves : met.resolves = true) {rounds : ℕ}
    (opened : met.openSockets rounds 0 = some true) (polls : ℕ) :
    ∃ state, met.serverAcceptsClients nprocs rounds polls = .accepting state := by
  have missing := few polls
  have tidy := Accepting.tidy_initial (show 0 < nprocs by omega)
  have none : (Accepting.initial nprocs).joined.length = 0 := rfl
  rcases tidy.loop_few ((List.range polls).map met.polls) (by omega) with
    ⟨state, loops, tidy, less⟩
  refine ⟨state, ?_⟩
  rw [serverAcceptsClients, if_pos resolves, opened]
  dsimp only
  rw [loops]
  exact if_pos (tidy.p ▸ by omega)

/-- A server with sockets makes a poll with an infinite timeout, if clients are missing. -/
theorem Few.polls_infinite (few : met.Few nprocs) (resolves : met.resolves = true) {rounds : ℕ}
    (opened : met.openSockets rounds 0 = some true) :
    ∃ i, met.Polls nprocs i ∧ pollTimeout (met.remaining i) < 0 := by
  have exhausted : ∃ i, pollTimeout (met.remaining i) < 0 := by
    rcases met.passes with ⟨i, late⟩
    refine ⟨i, pollTimeout_neg.mpr ?_⟩
    rw [remaining]
    omega
  refine ⟨Nat.find exhausted, ⟨?_, rounds, few.accepting resolves opened _⟩,
    Nat.find_spec exhausted⟩
  intro earlier before
  exact met.returns earlier (not_lt.mp (Nat.find_min exhausted before))

/-- A server without sockets throws. -/
theorem throws_of_closed {rounds : ℕ} (closed : met.openSockets rounds 0 = some false)
    (polls : ℕ) : met.serverAcceptsClients nprocs rounds polls = .thrown (.initial nprocs) [] := by
  rw [serverAcceptsClients, closed]
  exact ite_self _

/--
A server whose clients do not all come gives up after its timeout if and only if
it had no socket to accept them on: its interfaces could not be looked up, or no
socket could be opened before the deadline.
-/
theorem givesUp_iff (few : met.Few nprocs) :
    met.GivesUp nprocs ↔ met.resolves = false ∨ met.Closed := by
  constructor
  · rintro ⟨⟨rounds, polls, state, sent, ends, _⟩, _⟩
    cases resolves : met.resolves with
    | false => exact Or.inl rfl
    | true =>
        right
        cases opened : met.openSockets rounds 0 with
        | none =>
            rw [serverAcceptsClients, if_pos resolves, opened] at ends
            cases ends
        | some opened' =>
            cases opened' with
            | false => exact openSockets_iff.mp ⟨rounds, opened⟩
            | true =>
                rcases few.accepting resolves opened polls with ⟨state, accepting⟩
                rw [accepting] at ends
                cases ends
  · intro without
    have throws : ∃ rounds, ∀ polls,
        met.serverAcceptsClients nprocs rounds polls = .thrown (.initial nprocs) [] := by
      rcases without with unresolved | closed
      · refine ⟨0, fun polls => ?_⟩
        rw [serverAcceptsClients, unresolved]
        rfl
      · rcases openSockets_iff.mpr closed with ⟨rounds, closed⟩
        exact ⟨rounds, throws_of_closed closed⟩
    refine ⟨?_, ?_⟩
    · rcases throws with ⟨rounds, throws⟩
      exact ⟨rounds, 0, _, _, throws 0, nofun⟩
    · rintro i ⟨_, rounds, state, accepting⟩
      exfalso
      rcases without with unresolved | closed
      · rw [serverAcceptsClients, unresolved] at accepting
        cases accepting
      · rcases openSockets_iff.mpr closed with ⟨enough, closed⟩
        cases opened : met.openSockets rounds 0 with
        | none =>
            rw [serverAcceptsClients, opened] at accepting
            cases resolves : met.resolves <;> rw [resolves] at accepting <;> cases accepting
        | some opened' =>
            cases openSockets_unique closed opened
            rw [throws_of_closed opened] at accepting
            cases accepting

end Surroundings

/-- A server with a timeout of two seconds that no client ever connects to. -/
def nobody (opens : Bool) : Surroundings where
  timeout := 2000000000
  t0 := 0
  resolves := true
  opens := fun _ => opens
  opening := fun round => round * 1000000
  sockets := 1
  polling := fun i => i * 2000000000
  polls := fun i => if i ≤ 1 then .timeout else .blocks
  positive := Nat.one_pos
  expires := ⟨2000, by decide⟩
  passes := ⟨2, by decide⟩
  returns := by
    intro i finite
    have soon : i ≤ 1 := by
      rw [← not_lt, pollTimeout_neg] at finite
      omega
    rw [if_pos soon]
    trivial

theorem few_nobody (opens : Bool) : (nobody opens).Few 2 := by
  intro count
  have nothing : ∀ verified ∈ ((List.range count).map (nobody opens).polls).map Poll.verified,
      verified = 0 := by
    intro verified mem
    rw [List.map_map] at mem
    rcases List.mem_map.mp mem with ⟨i, _, rfl⟩
    show Poll.verified (if i ≤ 1 then .timeout else .blocks) = 0
    by_cases soon : i ≤ 1
    · rw [if_pos soon]
      rfl
    · rw [if_neg soon]
      rfl
  rw [List.sum_eq_zero nothing]
  decide

theorem givesUp_nobody : (nobody false).GivesUp 2 :=
  (Surroundings.givesUp_iff (few_nobody false)).mpr (Or.inr fun _ _ => rfl)

/-- The server waits for its second process forever. -/
theorem not_givesUp : ¬(nobody true).GivesUp 2 := by
  rintro ⟨_, finite⟩
  have opened : (nobody true).openSockets 1 0 = some true := rfl
  rcases (few_nobody true).polls_infinite rfl opened with ⟨i, polls, infinite⟩
  have soon := finite i polls
  have late : (nobody true).remaining i ≤ 0 :=
    le_trans (pollTimeout_neg.mp infinite) (by decide)
  exact absurd (soon late) (not_le.mpr infinite)

end DynamicHook

end Talpf
