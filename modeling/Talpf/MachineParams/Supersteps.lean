import Mathlib.Algebra.BigOperators.Group.List.Basic
import Talpf.MachineParams.Probe

/-!
# The supersteps of the machine probe

Messages are sent safely if and only if there is room for all of them, although
their offsets may wrap.  An exchange of conditions posts one message to each
other process, and what is agreed is the worst of all conditions.
-/

namespace Talpf

namespace Probe

variable {n : ℕ}

/-- Blocks with offsets that may wrap are within a buffer if and only if there is room for all. -/
theorem wrap_mul_iff {count blockSize size : ℕ} (small : size < 2 ^ 64) :
    (∀ k < count, wrap (wrap k * blockSize) + blockSize ≤ size) ↔ count * blockSize ≤ size := by
  have simplify : ∀ k, wrap (wrap k * blockSize) = wrap (k * blockSize) := by
    simp [wrap, Nat.mul_mod]
  simp only [simplify]
  constructor
  · intro held
    have reached : ∀ k ≤ count, k * blockSize ≤ size := by
      intro k
      induction k with
      | zero => simp
      | succ k ih =>
          intro less
          have before := ih (by omega)
          have here := held k (by omega)
          rw [wrap, Nat.mod_eq_of_lt (by omega)] at here
          rw [Nat.add_mul, Nat.one_mul]
          exact here
    exact reached count (Nat.le_refl _)
  · intro room k less
    have fits : (k + 1) * blockSize ≤ count * blockSize := Nat.mul_le_mul_right _ less
    rw [Nat.add_mul, Nat.one_mul] at fits
    have kept : wrap (k * blockSize) ≤ k * blockSize := Nat.mod_le _ _
    omega

@[simp]
theorem length_sendMsgs (pid : Fin n) (nMsgs mode blockSize : ℕ) :
    (sendMsgs pid nMsgs mode blockSize).length = nMsgs * n := by
  simp [sendMsgs, List.length_flatMap]

theorem mem_sendMsgs {pid : Fin n} {nMsgs blockSize : ℕ} {message : Message n} :
    message ∈ sendMsgs pid nMsgs 0 blockSize ↔ ∃ m < nMsgs, ∃ p : Fin n, message =
      ⟨pid, wrap (wrap (m * n + p.val) * blockSize), p, wrap (wrap (m * n + pid.val) * blockSize),
        blockSize⟩ := by
  simp [sendMsgs, eq_comm]

/-- The blocks of all messages are numbered by the message and the process. -/
theorem forall_block {nMsgs : ℕ} {property : ℕ → Prop} :
    (∀ m < nMsgs, ∀ p : Fin n, property (m * n + p.val)) ↔ ∀ k < nMsgs * n, property k := by
  constructor
  · intro each k less
    have positive : 0 < n := Nat.pos_of_mul_pos_left (Nat.lt_of_le_of_lt (Nat.zero_le k) less)
    have place := each (k / n) (Nat.div_lt_of_lt_mul (Nat.mul_comm _ _ ▸ less))
      ⟨k % n, Nat.mod_lt _ positive⟩
    rwa [Nat.mul_comm, Nat.div_add_mod] at place
  · intro all m less p
    apply all
    calc m * n + p.val < (m + 1) * n := by rw [Nat.add_mul, Nat.one_mul]; omega
      _ ≤ nMsgs * n := Nat.mul_le_mul_right _ less

namespace State

variable {state : State n} {blockSize nMsgs : ℕ}

/-- The superstep in which messages are sent. -/
def sending (state : State n) (nMsgs blockSize : ℕ) : Superstep n where
  queue := state.queue
  readSlot := state.readSlot
  writeSlot := state.writeSlot
  puts := 0
  messages := fun pid => sendMsgs pid nMsgs 0 blockSize

/-- There is room for a number of messages from each process to each. -/
structure Roomy (state : State n) (nMsgs blockSize : ℕ) : Prop where
  queue : ∀ p, nMsgs * n ≤ state.queue p
  readBuffer : ∀ p, nMsgs * n * blockSize ≤ state.readBuffer p
  writeBuffer : ∀ p, nMsgs * n * blockSize ≤ state.writeBuffer p

theorem Roomy.mono {fewer : ℕ} (roomy : state.Roomy nMsgs blockSize) (less : fewer ≤ nMsgs) :
    state.Roomy fewer blockSize where
  queue p := (Nat.mul_le_mul_right n less).trans (roomy.queue p)
  readBuffer p :=
    (Nat.mul_le_mul_right _ (Nat.mul_le_mul_right n less)).trans (roomy.readBuffer p)
  writeBuffer p :=
    (Nat.mul_le_mul_right _ (Nat.mul_le_mul_right n less)).trans (roomy.writeBuffer p)

/-- The buffers are registered as they are. -/
structure Registered (state : State n) : Prop where
  readSlot : state.readSlot = some state.readBuffer
  writeSlot : state.writeSlot = some state.writeBuffer

/-- Vectors have no more elements than `size_t` counts. -/
structure Small (state : State n) : Prop where
  readBuffer : ∀ p, state.readBuffer p < 2 ^ 64
  writeBuffer : ∀ p, state.writeBuffer p < 2 ^ 64

/-- Messages are sent safely if and only if there is room for them. -/
theorem safe_sending_iff (registered : state.Registered) (small : state.Small) :
    (state.sending nMsgs blockSize).Safe ↔ state.Roomy nMsgs blockSize := by
  have reads : (∀ pid, nMsgs * n * blockSize ≤ state.readBuffer pid) ↔ ∀ pid, ∀ m < nMsgs,
      ∀ p : Fin n, wrap (wrap (m * n + p.val) * blockSize) + blockSize ≤ state.readBuffer pid := by
    refine forall_congr' fun pid => ?_
    rw [← wrap_mul_iff (small.readBuffer pid), ← forall_block]
  have writes : (∀ p, nMsgs * n * blockSize ≤ state.writeBuffer p) ↔ ∀ p, ∀ m < nMsgs,
      ∀ pid : Fin n,
        wrap (wrap (m * n + pid.val) * blockSize) + blockSize ≤ state.writeBuffer p := by
    refine forall_congr' fun p => ?_
    rw [← wrap_mul_iff (small.writeBuffer p), ← forall_block]
  constructor
  · intro safe
    refine ⟨?_, reads.mpr ?_, writes.mpr ?_⟩
    · intro p
      simpa [sending] using safe.posted p
    · intro pid m less p
      rcases safe.held pid _ (mem_sendMsgs.mpr ⟨m, less, p, rfl⟩) with ⟨⟨sizes, slot, held⟩, _⟩
      cases registered.readSlot.symm.trans slot
      exact held
    · intro p m less pid
      rcases safe.held pid _ (mem_sendMsgs.mpr ⟨m, less, p, rfl⟩) with ⟨_, sizes, slot, held⟩
      cases registered.writeSlot.symm.trans slot
      exact held
  · intro roomy
    refine ⟨?_, ?_⟩
    · intro pid
      simpa [sending] using roomy.queue pid
    · intro pid message mem
      rcases mem_sendMsgs.mp mem with ⟨m, less, p, rfl⟩
      exact ⟨⟨_, registered.readSlot, reads.mp roomy.readBuffer pid m less p⟩,
        _, registered.writeSlot, writes.mp roomy.writeBuffer p m less pid⟩

theorem registered_registerBuffers : state.registerBuffers.Registered := ⟨rfl, rfl⟩

theorem Small.registerBuffers (small : state.Small) : state.registerBuffers.Small :=
  ⟨small.readBuffer, small.writeBuffer⟩

theorem Roomy.registerBuffers (roomy : state.Roomy nMsgs blockSize) :
    state.registerBuffers.Roomy nMsgs blockSize :=
  ⟨roomy.queue, roomy.readBuffer, roomy.writeBuffer⟩

/-- Messages from buffers that have just been registered -/
theorem safe_registerBuffers_iff (small : state.Small) :
    (state.registerBuffers.sending nMsgs blockSize).Safe ↔ state.Roomy nMsgs blockSize := by
  rw [safe_sending_iff registered_registerBuffers small.registerBuffers]
  exact ⟨fun roomy => ⟨roomy.queue, roomy.readBuffer, roomy.writeBuffer⟩, Roomy.registerBuffers⟩

/-- All supersteps so far are safe. -/
def Safe (state : State n) : Prop := ∀ superstep ∈ state.supersteps, superstep.Safe

/-- Only supersteps have been added. -/
def Continues (before after : State n) : Prop :=
  ∃ supersteps, after = { before with supersteps := before.supersteps ++ supersteps }

theorem Continues.refl (state : State n) : Continues state state := ⟨[], by simp⟩

theorem Continues.trans {before middle after : State n} (first : Continues before middle)
    (second : Continues middle after) : Continues before after := by
  rcases first with ⟨first, rfl⟩
  rcases second with ⟨second, rfl⟩
  exact ⟨first ++ second, by simp⟩

section Continuing

variable {before after : State n}

theorem Continues.roomy (continues : Continues before after)
    (roomy : before.Roomy nMsgs blockSize) : after.Roomy nMsgs blockSize := by
  rcases continues with ⟨_, rfl⟩
  exact ⟨roomy.queue, roomy.readBuffer, roomy.writeBuffer⟩

theorem Continues.small (continues : Continues before after) (small : before.Small) :
    after.Small := by
  rcases continues with ⟨_, rfl⟩
  exact ⟨small.readBuffer, small.writeBuffer⟩

theorem Continues.registered (continues : Continues before after)
    (registered : before.Registered) : after.Registered := by
  rcases continues with ⟨_, rfl⟩
  exact ⟨registered.readSlot, registered.writeSlot⟩

theorem Continues.sending (continues : Continues before after) :
    after.sending nMsgs blockSize = before.sending nMsgs blockSize := by
  rcases continues with ⟨_, rfl⟩
  rfl

theorem Continues.supersteps (continues : Continues before after) :
    before.supersteps ⊆ after.supersteps := by
  rcases continues with ⟨_, rfl⟩
  exact List.subset_append_left _ _

end Continuing

theorem continues_post (puts : ℕ) (messages : Fin n → List (Message n)) :
    Continues state (state.post puts messages) := ⟨_, rfl⟩

theorem Safe.send (safe : state.Safe) (superstep : (state.sending nMsgs blockSize).Safe) :
    (state.send nMsgs blockSize).Safe := by
  intro other mem
  rcases List.mem_append.mp mem with mem | mem
  · exact safe other mem
  · rw [List.mem_singleton.mp mem]
    exact superstep

/-- The superstep in which each process puts something to each other one. -/
def putting (state : State n) : Superstep n where
  queue := state.queue
  readSlot := state.readSlot
  writeSlot := state.writeSlot
  puts := n - 1
  messages := fun _ => []

theorem safe_putting_iff : state.putting.Safe ↔ ∀ p, n - 1 ≤ state.queue p := by
  constructor
  · intro safe p
    simpa [putting] using safe.posted p
  · intro room
    refine ⟨?_, ?_⟩
    · intro p
      simpa [putting] using room p
    · intro p message mem
      cases mem

theorem Safe.put (safe : state.Safe) (superstep : state.putting.Safe) :
    (state.post (n - 1) fun _ => []).Safe := by
  intro other mem
  rcases List.mem_append.mp mem with mem | mem
  · exact safe other mem
  · rw [List.mem_singleton.mp mem]
    exact superstep

end State

/-- The summary is the worst of all conditions. -/
theorem summarize_eq (conditions : List ErrorCondition) {result : ErrorCondition}
    (fine : result ≠ .error) :
    summarize conditions result =
      if .error ∈ conditions then .error else if .stop ∈ conditions then .stop else result := by
  induction conditions generalizing result with
  | nil => simp [summarize]
  | cons condition conditions ih =>
      cases condition with
      | proceed => simp [summarize, ih fine]
      | stop => simp [summarize, fine, ih]
      | error => simp [summarize]

section Agreement

variable {timing : Timing n} {moment : Moment} {allC : Fin n → ErrorCondition} {state : State n}

/-- What is posted in an exchange of conditions, and what is agreed. -/
theorem allgather_cases (timing : Timing n) (moment : Moment) (allC : Fin n → ErrorCondition)
    (state : State n) :
    ((allgather timing moment allC state).1 = state ∨
        (allgather timing moment allC state).1 = state.post (n - 1) fun _ => []) ∧
      ((allgather timing moment allC state).2 = .error ∨
        (allgather timing moment allC state).2 = summarize (List.ofFn allC) .proceed) := by
  rw [allgather]
  split
  next =>
    dsimp only
    split
    next =>
      split
      next => exact ⟨Or.inr rfl, Or.inr rfl⟩
      next => exact ⟨Or.inr rfl, Or.inl rfl⟩
    next => exact ⟨Or.inr rfl, Or.inl rfl⟩
  next => exact ⟨Or.inl rfl, Or.inl rfl⟩

theorem continues_allgather :
    State.Continues state (allgather timing moment allC state).1 := by
  rcases (allgather_cases timing moment allC state).1 with same | posted
  · rw [same]
    exact .refl state
  · rw [posted]
    exact State.continues_post _ _

theorem safe_allgather (safe : state.Safe) (room : ∀ p, n - 1 ≤ state.queue p) :
    (allgather timing moment allC state).1.Safe := by
  rcases (allgather_cases timing moment allC state).1 with same | posted
  · rw [same]
    exact safe
  · rw [posted]
    exact safe.put (State.safe_putting_iff.mpr room)

/-- All go on only if each of them can. -/
theorem proceed_of_allgather (agreed : (allgather timing moment allC state).2 = .proceed)
    (p : Fin n) : allC p = .proceed := by
  rcases (allgather_cases timing moment allC state).2 with error | summary
  · rw [error] at agreed
    cases agreed
  · rw [summary, summarize_eq _ (by simp)] at agreed
    split_ifs at agreed with error stop
    have mem : allC p ∈ List.ofFn allC := List.mem_ofFn.mpr ⟨p, rfl⟩
    cases condition : allC p with
    | proceed => rfl
    | stop => exact absurd (condition ▸ mem) stop
    | error => exact absurd (condition ▸ mem) error

/-- All stop only if one of them wants to and there is no error. -/
theorem stop_of_allgather (agreed : (allgather timing moment allC state).2 = .stop) :
    (∃ p, allC p = .stop) ∧ ∀ p, allC p ≠ .error := by
  rcases (allgather_cases timing moment allC state).2 with error | summary
  · rw [error] at agreed
    cases agreed
  · rw [summary, summarize_eq _ (by simp)] at agreed
    split_ifs at agreed with error stop
    refine ⟨List.mem_ofFn.mp stop, ?_⟩
    intro p isError
    exact error (List.mem_ofFn.mpr ⟨p, isError⟩)

end Agreement

end Probe

end Talpf
