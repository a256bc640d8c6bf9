import Talpf.Library.Codes
import Mathlib.Data.Fin.Tuple.Basic

/-!
# Loops of programs

Programs are built from reads, writes and messages that follow one another in loops.
What a loop computes is one big store if no pass reads what another writes; it
follows a plan if its passes do.
-/

namespace Relaxed

universe u v w x

variable {Process : Type u} {Place : Type v} {Value : Type w} {Index : Type x}

namespace Code

/-- Read places one after the other. -/
def reads : (size : ℕ) → (Fin size → Place) →
    ((Fin size → Value) → Code Process Place Value) → Code Process Place Value
  | 0, _, next => next Fin.elim0
  | size + 1, places, next => .read (places ⟨0, Nat.succ_pos size⟩) fun value =>
      reads size (fun i => places i.succ) fun values => next (Fin.cons value values)

def writes (values : List (Place × Value)) (next : Code Process Place Value) :
    Code Process Place Value :=
  values.foldr (fun value next => .write value.1 value.2 next) next

def sends (messages : Posted Process Place) (next : Code Process Place Value) :
    Code Process Place Value :=
  messages.foldr (fun message next => .send message.1 message.2 next) next

def forEach (indices : List Index)
    (body : Index → Code Process Place Value → Code Process Place Value)
    (next : Code Process Place Value) : Code Process Place Value :=
  indices.foldr body next

theorem sends_append (first second : Posted Process Place) (next : Code Process Place Value) :
    sends (first ++ second) next = sends first (sends second next) := by
  simp [sends]

theorem forEach_sends {indices : List Index} {messages : Index → Posted Process Place}
    {body : Index → Code Process Place Value → Code Process Place Value}
    (isBody : ∀ index next, body index next = sends (messages index) next)
    (next : Code Process Place Value) :
    forEach indices body next = sends (indices.flatMap messages) next := by
  induction indices with
  | nil => rfl
  | cons index rest ih =>
      rw [List.flatMap_cons, sends_append, ← ih, ← isBody]
      rfl

end Code

section Values

variable [DecidableEq Place]

theorem store_append (first second : List (Place × Value)) (memory : Place → Value) :
    store (first ++ second) memory = store second (store first memory) := by
  simp [store]

theorem store_of_notMem {values : List (Place × Value)} {place : Place}
    (none : ∀ value, (place, value) ∉ values) (memory : Place → Value) :
    store values memory place = memory place := by
  rcases store_cases values memory place with stored | ⟨_, same⟩
  · exact absurd stored (none _)
  · exact same

theorem store_of_mem {values : List (Place × Value)} {place : Place} {value : Value}
    (member : (place, value) ∈ values) (single : ∀ other, (place, other) ∈ values → other = value)
    (memory : Place → Value) : store values memory place = value := by
  rcases store_cases values memory place with stored | ⟨none, _⟩
  · exact single _ stored
  · exact absurd member (none value)

namespace Code

theorem run_reads (size : ℕ) (places : Fin size → Place)
    (next : (Fin size → Value) → Code Process Place Value) (memory : Place → Value) :
    (reads size places next).run memory = (next fun i => memory (places i)).run memory := by
  induction size with
  | zero =>
      show (next Fin.elim0).run memory = _
      congr
      funext i
      exact i.elim0
  | succ size ih =>
      show (reads size (fun i => places i.succ) fun values =>
        next (Fin.cons (memory (places 0)) values)).run memory = _
      rw [ih]
      congr
      exact Fin.cons_self_tail fun i => memory (places i)

theorem run_writes (values : List (Place × Value)) (next : Code Process Place Value)
    (memory : Place → Value) :
    (writes values next).run memory = next.run (store values memory) := by
  induction values generalizing memory with
  | nil => rfl
  | cons first rest ih => exact ih _

theorem run_sends (messages : Posted Process Place) (next : Code Process Place Value)
    (memory : Place → Value) : (sends messages next).run memory =
      { next.run memory with
        messages := messages.map (valued memory) ++ (next.run memory).messages } := by
  induction messages with
  | nil => rfl
  | cons first rest ih =>
      have isFirst : (sends (first :: rest) next).run memory =
        { (sends rest next).run memory with
          messages := valued memory first :: ((sends rest next).run memory).messages } := rfl
      rw [isFirst, ih]
      rfl

end Code

/-- From all memories that are the same outside of the targets the code stores these values. -/
structure Stores (memory : Place → Value) (targets : Set Place)
    (body : Code Process Place Value → Code Process Place Value)
    (values : List (Place × Value)) : Prop where
  within : ∀ value ∈ values, value.1 ∈ targets
  run : ∀ next other, (∀ place ∉ targets, other place = memory place) →
    (body next).run other = next.run (store values other)

/-- Passes that read nothing of what the others write -/
theorem stores_forEach {memory : Place → Value} {targets : Set Place} {indices : List Index}
    {body : Index → Code Process Place Value → Code Process Place Value}
    {values : Index → List (Place × Value)}
    (stores : ∀ index ∈ indices, Stores memory targets (body index) (values index)) :
    Stores memory targets (Code.forEach indices body) (indices.flatMap values) where
  within := by
    intro value member
    rcases List.mem_flatMap.mp member with ⟨index, isIndex, among⟩
    exact (stores index isIndex).within value among
  run := by
    intro next
    induction indices with
    | nil => exact fun _ _ => rfl
    | cons index rest ih =>
        intro other same
        have first := stores index List.mem_cons_self
        have unchanged : ∀ place ∉ targets, store (values index) other place = memory place := by
          intro place outside
          rw [store_of_notMem (fun value member => outside (first.within _ member))]
          exact same place outside
        rw [List.flatMap_cons, store_append]
        apply (first.run (Code.forEach rest body next) other same).trans
        exact ih (fun index member => stores index (List.mem_cons_of_mem _ member)) _ unchanged

end Values

section Plans

variable [DecidableEq Process] {plan : Plan Process Place} {pattern : Process → Process → ℕ}
  {process : Process} {k : ℕ} {posted : Posted Process Place}
  {next : Code Process Place Value}

namespace Code

theorem follows_reads {size : ℕ} {places : Fin size → Place}
    {next : (Fin size → Value) → Code Process Place Value}
    (clear : ∀ i, Clear plan pattern process k posted (places i))
    (follows : ∀ values, (next values).Follows plan pattern process k posted) :
    (reads size places next).Follows plan pattern process k posted := by
  induction size with
  | zero => exact follows _
  | succ size ih =>
      exact ⟨clear 0, fun value => ih (fun i => clear i.succ) fun values => follows _⟩

theorem follows_writes {values : List (Place × Value)}
    (clear : ∀ value ∈ values, Clear plan pattern process k posted value.1)
    (apart : ∀ value ∈ values, ¬posted.Source value.1)
    (follows : next.Follows plan pattern process k posted) :
    (writes values next).Follows plan pattern process k posted := by
  induction values with
  | nil => exact follows
  | cons first rest ih =>
      refine ⟨clear first List.mem_cons_self, apart first List.mem_cons_self, ?_⟩
      exact ih (fun value member => clear value (List.mem_cons_of_mem _ member))
        fun value member => apart value (List.mem_cons_of_mem _ member)

theorem follows_forEach {indices : List Index}
    {body : Index → Code Process Place Value → Code Process Place Value}
    (passes : ∀ index ∈ indices, ∀ next : Code Process Place Value,
      next.Follows plan pattern process k posted →
        (body index next).Follows plan pattern process k posted)
    (follows : next.Follows plan pattern process k posted) :
    (forEach indices body next).Follows plan pattern process k posted := by
  induction indices with
  | nil => exact follows
  | cons index rest ih =>
      apply passes index List.mem_cons_self
      exact ih fun index member => passes index (List.mem_cons_of_mem _ member)

theorem follows_sends {messages : Posted Process Place}
    (planned : ∀ message ∈ messages, ∀ copy ∈ message.2,
      plan k message.1 copy.2 = some (process, copy.1))
    (all : ∀ peer, (posted ++ messages).count peer = pattern process peer)
    (follows : next.Follows plan pattern process (k + 1) []) :
    (sends messages (.sync next)).Follows plan pattern process k posted := by
  induction messages generalizing posted with
  | nil =>
      rw [List.append_nil] at all
      exact ⟨all, follows⟩
  | cons first rest ih =>
      have further : posted ++ first :: rest = (posted ++ [first]) ++ rest := by
        simp
      rw [further] at all
      refine ⟨?_, planned first List.mem_cons_self,
        ih (fun message member => planned message (List.mem_cons_of_mem _ member)) all⟩
      have counted := all first.1
      rw [Posted.count, List.countP_append, ← Posted.count, ← Posted.count,
        Posted.count_append, if_pos rfl] at counted
      omega

end Code

end Plans

section Ends

variable {sendable : Process × List (Place × Place) → Prop} {syncs : ℕ}
  {next : Code Process Place Value}

namespace Code

theorem ends_reads {size : ℕ} {places : Fin size → Place}
    {next : (Fin size → Value) → Code Process Place Value}
    (ends : ∀ values, (next values).Ends sendable syncs) :
    (reads size places next).Ends sendable syncs := by
  induction size with
  | zero => exact ends _
  | succ size ih =>
      rw [reads, Ends]
      exact fun value => ih fun values => ends _

theorem ends_writes (values : List (Place × Value)) (ends : next.Ends sendable syncs) :
    (writes values next).Ends sendable syncs := by
  induction values with
  | nil => exact ends
  | cons first rest ih =>
      rw [writes, List.foldr_cons, Ends]
      exact ih

theorem ends_forEach {indices : List Index}
    {body : Index → Code Process Place Value → Code Process Place Value}
    (passes : ∀ index ∈ indices, ∀ next : Code Process Place Value,
      next.Ends sendable syncs → (body index next).Ends sendable syncs)
    (ends : next.Ends sendable syncs) : (forEach indices body next).Ends sendable syncs := by
  induction indices with
  | nil => exact ends
  | cons index rest ih =>
      apply passes index List.mem_cons_self
      exact ih fun index member => passes index (List.mem_cons_of_mem _ member)

end Code

end Ends

section Deliveries

variable [DecidableEq Process] [DecidableEq Place] {plan : Plan Process Place}
  {pattern : Process → Process → ℕ} {processes : List Process}
  {start : Process → Position Process Place Value} {k : ℕ} {process : Process}

/-- A place that the plan has no message for stays. -/
theorem meaning_of_unplanned
    (follows : ∀ process, (start process).code.Follows plan pattern process 0 [])
    {place : Place} (unplanned : plan k process place = none) :
    (meaning processes start (k + 1) process).memory place =
      (meant processes start k process).memory place := by
  apply store_of_notMem
  intro value member
  rcases mem_arrivals.mp member with ⟨peer, _, message, sends, toHere, among⟩
  rcases (meaning_follows follows k peer).messages _ sends among with ⟨source, planned, _⟩
  rw [toHere, unplanned] at planned
  cases planned

/-- A place gets what the plan says, if the message is sent. -/
theorem meaning_of_planned
    (follows : ∀ process, (start process).code.Follows plan pattern process 0 [])
    {place source : Place} {peer : Process} (isProcess : peer ∈ processes)
    (planned : plan k process place = some (peer, source))
    {copies : List (Place × Place)}
    (sent : valued (meant processes start k peer).memory (process, copies) ∈
      (meant processes start k peer).messages) (among : (source, place) ∈ copies) :
    (meaning processes start (k + 1) process).memory place =
      (meant processes start k peer).memory source := by
  apply store_of_mem
  · apply mem_arrivals.mpr
    exact ⟨peer, isProcess, _, sent, rfl, List.mem_map.mpr ⟨_, among, rfl⟩⟩
  · intro other member
    rcases mem_arrivals.mp member with ⟨itsPeer, _, message, sends, toHere, isAmong⟩
    rcases (meaning_follows follows k itsPeer).messages _ sends isAmong with
      ⟨itsSource, alsoPlanned, rfl⟩
    rw [toHere, planned] at alsoPlanned
    cases alsoPlanned
    rfl

/-- When all programs have ended nothing changes any more. -/
theorem advance_of_ended {positions : Process → Position Process Place Value}
    (ended : ∀ process, (positions process).code = .done) :
    advance processes positions = positions := by
  have outcome : ∀ process, (positions process).outcome =
      ⟨(positions process).memory, [], none⟩ := by
    intro process
    rw [Position.outcome, ended]
    rfl
  funext process
  have nothing : arrivals processes (fun peer => (positions peer).outcome) process = [] := by
    simp [arrivals, outcome]
  have advanced : advance processes positions process =
      ⟨(positions process).memory, (positions process).code⟩ := by
    simp only [advance, nothing, ended]
    rw [outcome]
    rfl
  exact advanced

theorem meaning_of_ended (ended : ∀ process, (meaning processes start k process).code = .done)
    (more : ℕ) : meaning processes start (k + more) = meaning processes start k := by
  induction more with
  | zero => rfl
  | succ more ih =>
      show advance processes (meaning processes start (k + more)) = _
      rw [ih]
      exact advance_of_ended ended

end Deliveries

end Relaxed
