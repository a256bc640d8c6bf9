import Mathlib.Algebra.Group.Nat.Defs
import Mathlib.Data.List.FinRange
import Mathlib.Data.List.Monad

/-!
# Accepting clients

`serverAcceptsClients` polls its server sockets until all clients have connected,
and it accepts one client from each socket that is ready.  Whether more clients
are expected is looked at before each poll, but not from one socket to the next.
What the clients and the sockets do is the sequence of the polls' results.
-/

namespace Talpf

namespace DynamicHook

/-- `magicClient`, with the character that ends it -/
def magicClient : List Char := "LPF_v0_client".toList ++ [Char.ofNat 0]

/-- A client whose connection is accepted. -/
structure Client where
  /-- The descriptor of the connection -/
  fd : ℕ
  /-- The server can write its own magic value to the client. -/
  writes : Bool
  /-- What the client sends until it stops sending -/
  sends : List Char
deriving DecidableEq

namespace Client

/-- What `readAll` reads. -/
def received (client : Client) : List Char := client.sends.take magicClient.length

/-- The buffer of the handshake, which is filled with zeros before it is read. -/
def buf (client : Client) : List Char :=
  client.received ++
    List.replicate (magicClient.length - client.received.length) (Char.ofNat 0)

/-- The handshake succeeds. -/
def verified (client : Client) : Bool :=
  (client.writes && !client.received.isEmpty) && decide (client.buf = magicClient)

end Client

/-- What a server socket does in a poll that finds some socket ready. -/
inductive Event where
  | quiet
  /-- `accept` fails. -/
  | refused
  | accepted (client : Client)

/-- The result of a poll. -/
inductive Poll (sockets : ℕ) where
  /-- Some sockets are ready. -/
  | ready (events : Fin sockets → Event)
  | timeout
  | error
  /-- The poll does not return. -/
  | blocks

/-- The variables of the loop. -/
structure Accepting where
  p : ℕ
  /-- `none` is the descriptor -1. -/
  connections : List (Option ℕ)
  success : List Bool
  /-- The clients that have been accepted -/
  accepted : List Client
  /-- The descriptors that have been closed -/
  closed : List ℕ
deriving DecidableEq

namespace Accepting

def initial (nprocs : ℕ) : Accepting where
  p := 1
  connections := List.replicate nprocs none
  success := (List.replicate nprocs false).set 0 true
  accepted := []
  closed := []

def closeSock (state : Accepting) (fd : ℕ) : Accepting :=
  { state with closed := state.closed ++ [fd] }

/-- Store a connection under the next index.  `none` is an access out of bounds. -/
def store (state : Accepting) (fd : ℕ) : Option Accepting :=
  if state.p < state.connections.length ∧ state.p < state.success.length then
    some { state with
      p := state.p + 1
      connections := state.connections.set state.p (some fd)
      success := state.success.set state.p true }
  else none

/-- Shake hands with a client. -/
def shake (state : Accepting) (client : Client) : Option Accepting :=
  let state := { state with accepted := state.accepted ++ [client] }
  if client.writes && !client.received.isEmpty then
    if client.buf = magicClient then state.store client.fd
    else some (state.closeSock client.fd)
  else some (state.closeSock client.fd)

/-- Look at one server socket. -/
def serve (state : Accepting) : Event → Option Accepting
  | .quiet => some state
  | .refused => some state
  | .accepted client => state.shake client

/-- Look at all server sockets. -/
def serveAll (state : Accepting) (events : List Event) : Option Accepting :=
  events.foldlM serve state

/-- The accepting loop, for as long as the given polls last. -/
def loop {sockets : ℕ} (nprocs : ℕ) : List (Poll sockets) → Accepting → Option Accepting
  | [], state => some state
  | poll :: polls, state =>
      if state.p < nprocs then
        match state.success[state.p]? with
        | none => none
        -- the loop spins without polling
        | some true => some state
        | some false =>
            match poll with
            | .ready events => (state.serveAll (List.ofFn events)).bind (loop nprocs polls)
            | .timeout => loop nprocs polls state
            | .error => loop nprocs polls state
            | .blocks => some state
      else some state

/-- The connections of the clients that were verified. -/
def joined (state : Accepting) : List ℕ := (state.accepted.filter Client.verified).map Client.fd

/-- Every verified client has an index of its own, and all others are disconnected. -/
structure Tidy (nprocs : ℕ) (state : Accepting) : Prop where
  p : state.p = 1 + state.joined.length
  bound : state.joined.length < nprocs
  connections : state.connections = none :: (state.joined.map some ++
    List.replicate (nprocs - 1 - state.joined.length) none)
  success : state.success = List.replicate state.p true ++ List.replicate (nprocs - state.p) false
  closed : state.closed = (state.accepted.filter fun client => !client.verified).map Client.fd

variable {nprocs : ℕ} {state after : Accepting} {client : Client}

theorem tidy_initial (positive : 0 < nprocs) : Tidy nprocs (initial nprocs) := by
  obtain ⟨others, rfl⟩ : ∃ others, nprocs = others + 1 := ⟨nprocs - 1, by omega⟩
  exact ⟨rfl, positive, rfl, rfl, rfl⟩

/-- A client is stored under the next index, unless it fails the handshake. -/
theorem shake_eq (state : Accepting) (client : Client) :
    state.shake client =
      if client.verified then { state with accepted := state.accepted ++ [client] }.store client.fd
      else some ({ state with accepted := state.accepted ++ [client] }.closeSock client.fd) := by
  rw [shake, Client.verified]
  cases client.writes && !client.received.isEmpty with
  | false => rfl
  | true =>
      rw [if_pos rfl, Bool.true_and]
      by_cases genuine : client.buf = magicClient
      · rw [if_pos genuine, decide_eq_true genuine, if_pos rfl]
      · rw [if_neg genuine, decide_eq_false genuine, if_neg Bool.false_ne_true]

/-- The entry behind those in use is the next one to be used. -/
theorem set_after {α : Type} (used : List α) (fresh entry : α) {left : ℕ} (positive : 0 < left) :
    (used ++ List.replicate left fresh).set used.length entry =
      (used ++ [entry]) ++ List.replicate (left - 1) fresh := by
  obtain ⟨others, rfl⟩ : ∃ others, left = others + 1 := ⟨left - 1, by omega⟩
  rw [List.set_append_right _ _ (Nat.le_refl _), Nat.sub_self, List.replicate_succ,
    List.set_cons_zero, List.append_assoc]
  rfl

/-- Some more clients join, unless there are too many of them: then one is stored outside of the
arrays. -/
def Joins (nprocs count : ℕ) (state : Accepting) (result : Option Accepting) : Prop :=
  (state.joined.length + count < nprocs ∧ ∃ after, result = some after ∧ Tidy nprocs after ∧
    after.joined.length = state.joined.length + count) ∨
  (nprocs ≤ state.joined.length + count ∧ result = none)

/-- A client that fails the handshake is disconnected. -/
theorem Tidy.shake_garbled (tidy : Tidy nprocs state) (garbled : client.verified = false) :
    ∃ after, state.shake client = some after ∧ Tidy nprocs after ∧ after.joined = state.joined := by
  let after := { state with accepted := state.accepted ++ [client] }.closeSock client.fd
  have same : after.joined = state.joined := by
    simp [after, joined, closeSock, List.filter_append, garbled]
  refine ⟨after, by rw [shake_eq, garbled, if_neg Bool.false_ne_true], ?_, same⟩
  refine ⟨?_, ?_, ?_, tidy.success, ?_⟩
  · rw [same]
    exact tidy.p
  · rw [same]
    exact tidy.bound
  · rw [same]
    exact tidy.connections
  · simp [after, closeSock, tidy.closed, List.filter_append, garbled]

/-- A verified client has the next index if there is one. -/
theorem Tidy.shake_verified (tidy : Tidy nprocs state) (verified : client.verified = true) :
    Joins nprocs 1 state (state.shake client) := by
  have bound := tidy.bound
  have place := tidy.p
  have connected : state.connections.length = nprocs := by
    rw [tidy.connections, List.length_cons, List.length_append, List.length_map,
      List.length_replicate]
    omega
  have noted : state.success.length = nprocs := by
    rw [tidy.success, List.length_append, List.length_replicate, List.length_replicate]
    omega
  rw [Joins, shake_eq, if_pos verified, store]
  dsimp only
  rw [connected, noted]
  by_cases room : state.joined.length + 1 < nprocs
  · left
    have inside : state.p < nprocs := by omega
    rw [if_pos ⟨inside, inside⟩]
    let after : Accepting :=
      { p := state.p + 1
        connections := state.connections.set state.p (some client.fd)
        success := state.success.set state.p true
        accepted := state.accepted ++ [client]
        closed := state.closed }
    have joins : after.joined = state.joined ++ [client.fd] := by
      simp [after, joined, List.filter_append, verified]
    refine ⟨room, after, rfl, ⟨?_, ?_, ?_, ?_, ?_⟩, by rw [joins, List.length_append]; rfl⟩
    · rw [joins, List.length_append]
      show state.p + 1 = 1 + (state.joined.length + 1)
      omega
    · rw [joins, List.length_append]
      exact room
    · show state.connections.set state.p (some client.fd) = _
      have used : (state.joined.map some).length = state.joined.length := List.length_map _
      rw [joins, tidy.connections, place, Nat.add_comm, List.set_cons_succ, ← used,
        set_after _ _ _ (by omega), List.map_append, List.length_append]
      simp only [used, List.map_cons, List.map_nil, List.length_cons, List.length_nil]
      rw [show nprocs - 1 - state.joined.length - 1 = nprocs - 1 - (state.joined.length + (0 + 1))
        from by omega]
    · show state.success.set state.p true = _
      have used : (List.replicate state.p true).length = state.p := List.length_replicate
      have grown : List.replicate (state.p + 1) true = List.replicate state.p true ++ [true] :=
        List.replicate_succ'
      have set := set_after (List.replicate state.p true) false true
        (show 0 < nprocs - state.p by omega)
      rw [used] at set
      rw [tidy.success, set, ← grown, Nat.sub_sub]
    · show state.closed = _
      rw [tidy.closed]
      simp [after, List.filter_append, verified]
  · exact Or.inr ⟨by omega, if_neg (by omega)⟩

/-- How many clients are verified among some events. -/
def verifiedCount (events : List Event) : ℕ :=
  events.countP fun event =>
    match event with
    | .accepted client => client.verified
    | .quiet | .refused => false

/-- The sockets of one poll are served as long as there are indices left. -/
theorem Tidy.serveAll (tidy : Tidy nprocs state) (events : List Event) :
    Joins nprocs (verifiedCount events) state (state.serveAll events) := by
  induction events generalizing state with
  | nil => exact Or.inl ⟨tidy.bound, state, rfl, tidy, rfl⟩
  | cons event events ih =>
      rw [Accepting.serveAll, List.foldlM_cons]
      cases event with
      | quiet => exact ih tidy
      | refused => exact ih tidy
      | accepted client =>
          show Joins _ _ _ ((state.shake client).bind _)
          cases verified : client.verified with
          | false =>
              have count : verifiedCount (.accepted client :: events) = verifiedCount events := by
                rw [verifiedCount, List.countP_cons_of_neg (by simp [verified])]
                rfl
              rcases tidy.shake_garbled verified with ⟨after, shakes, tidyAfter, same⟩
              rw [count, shakes, Joins, ← same]
              exact ih tidyAfter
          | true =>
              have count : verifiedCount (.accepted client :: events) =
                  verifiedCount events + 1 := by
                rw [verifiedCount, List.countP_cons_of_pos (by simp [verified])]
                rfl
              rw [count]
              rcases tidy.shake_verified verified with
                ⟨room, after, shakes, tidyAfter, joined⟩ | ⟨full, faults⟩
              · rw [shakes, Joins]
                rcases ih tidyAfter with ⟨room, last, serves, tidyLast, joinedLast⟩ | ⟨full, faults⟩
                · exact Or.inl ⟨by omega, last, serves, tidyLast, by omega⟩
                · exact Or.inr ⟨by omega, faults⟩
              · rw [faults]
                exact Or.inr ⟨by omega, rfl⟩

end Accepting

/-- How many clients are verified in one poll. -/
def Poll.verified {sockets : ℕ} : Poll sockets → ℕ
  | .ready events => Accepting.verifiedCount (List.ofFn events)
  | .timeout | .error | .blocks => 0

/-- The poll returns. -/
def Poll.Returns {sockets : ℕ} : Poll sockets → Prop
  | .ready _ | .timeout | .error => True
  | .blocks => False

/-- No poll verifies more clients than are still expected when it is made, where `joined` have
joined before. -/
def Fits {sockets : ℕ} (nprocs : ℕ) : ℕ → List (Poll sockets) → Prop
  | _, [] => True
  | joined, poll :: polls => joined + 1 < nprocs →
      joined + poll.verified < nprocs ∧
        (poll.Returns → Fits nprocs (joined + poll.verified) polls)

namespace Accepting

variable {sockets nprocs : ℕ} {state : Accepting}

/-- The loop polls as long as clients are missing. -/
theorem Tidy.loop_cons (tidy : Tidy nprocs state) (poll : Poll sockets)
    (polls : List (Poll sockets)) :
    loop nprocs (poll :: polls) state =
      if state.joined.length + 1 < nprocs then
        match poll with
        | .ready events => (state.serveAll (List.ofFn events)).bind (loop nprocs polls)
        | .timeout => loop nprocs polls state
        | .error => loop nprocs polls state
        | .blocks => some state
      else some state := by
  have place := tidy.p
  by_cases missing : state.joined.length + 1 < nprocs
  · have inside : state.p < nprocs := by omega
    have unused : state.success[state.p]? = some false := by
      rw [tidy.success, List.getElem?_append_right (by simp), List.length_replicate, Nat.sub_self,
        List.getElem?_replicate, if_pos (by omega)]
    rw [if_pos missing]
    cases poll <;> rw [loop, if_pos inside, unused]
  · rw [if_neg missing]
    cases poll <;> exact if_neg (by omega)

/-- The loop keeps to its indices if and only if no poll verifies too many clients. -/
theorem Tidy.loop_iff (tidy : Tidy nprocs state) (polls : List (Poll sockets)) :
    (∃ after, loop nprocs polls state = some after ∧ Tidy nprocs after) ↔
      Fits nprocs state.joined.length polls := by
  induction polls generalizing state with
  | nil => exact ⟨fun _ => trivial, fun _ => ⟨state, rfl, tidy⟩⟩
  | cons poll polls ih =>
      rw [tidy.loop_cons, Fits]
      by_cases missing : state.joined.length + 1 < nprocs
      · rw [if_pos missing, forall_prop_of_true missing]
        have nothing : (∃ after, loop nprocs polls state = some after ∧ Tidy nprocs after) ↔
            state.joined.length + 0 < nprocs ∧
              (True → Fits nprocs (state.joined.length + 0) polls) := by
          rw [ih tidy]
          exact ⟨fun fits => ⟨tidy.bound, fun _ => fits⟩, fun fits => fits.2 trivial⟩
        cases poll with
        | ready events =>
            dsimp only
            rcases tidy.serveAll (List.ofFn events) with
              ⟨room, after, serves, tidyAfter, joined⟩ | ⟨full, faults⟩
            · rw [serves, Option.bind_some, ih tidyAfter, joined]
              exact ⟨fun fits => ⟨room, fun _ => fits⟩, fun fits => fits.2 trivial⟩
            · rw [faults]
              refine iff_of_false ?_ fun fits => absurd fits.1 (not_lt.mpr full)
              rintro ⟨after, loops, _⟩
              cases loops
        | timeout => exact nothing
        | error => exact nothing
        | blocks => exact ⟨fun _ => ⟨tidy.bound, False.elim⟩, fun _ => ⟨state, rfl, tidy⟩⟩
      · rw [if_neg missing]
        exact ⟨fun _ expected => absurd expected missing, fun _ => ⟨state, rfl, tidy⟩⟩

end Accepting

/--
The accepting loop keeps to the indices below `nprocs`, stores each verified
client under an index of its own and disconnects all others, if and only if no
poll verifies more clients than are still expected.
-/
theorem accepts_iff {nprocs sockets : ℕ} (positive : 1 ≤ nprocs) (polls : List (Poll sockets)) :
    (∃ state, Accepting.loop nprocs polls (.initial nprocs) = some state ∧
      state.Tidy nprocs) ↔ Fits nprocs 0 polls :=
  (Accepting.tidy_initial positive).loop_iff polls

/-- A client that does as it should. -/
def genuine (fd : ℕ) : Client := ⟨fd, true, magicClient⟩

theorem accepts_two : ∃ state, Accepting.loop 2 [(.ready fun _ => .accepted (genuine 5) : Poll 1)]
    (.initial 2) = some state ∧ state.Tidy 2 :=
  (accepts_iff (by decide) _).mpr fun _ => ⟨by decide, fun _ => trivial⟩

/-- Both sockets of a server that expects one client are ready in one poll. -/
theorem not_accepts : Accepting.loop 2
    [.ready fun socket : Fin 2 => .accepted (genuine (5 + socket.val))] (.initial 2) = none := by
  decide

end DynamicHook

end Talpf
