import Talpf.Interface.Supersteps

/-!
# Setting up contexts together

All processes construct their contexts at the same time.  A process that runs
out of memory reduces once, in the handler of the constructor.  A process that
does not learns of the failure in the reduction of the constructor's body, and
then throws into the same handler, where it reduces once more.
-/

namespace Talpf

open Spmd

namespace Interface

variable {n : ℕ} {memRange : Fin n → ℕ} {device : Fin n → Device n} {outOfMemory : Fin n → Bool}

/-- Construct the contexts of all processes; `true` tells which of them run out of memory. -/
def createAll (memRange : Fin n → ℕ) (device : Fin n → Device n) (outOfMemory : Fin n → Bool)
    (p : Fin n) : Comm n (Option (Interface n)) :=
  create (memRange p) (device p) (outOfMemory p)

/-- All processes reduce equally often, and all construct their contexts or none does. -/
def CreatedTogether (memRange : Fin n → ℕ) (device : Fin n → Device n)
    (outOfMemory : Fin n → Bool) : Prop :=
  ∃ rounds created, Executes (createAll memRange device outOfMemory) rounds created ∧
    (∀ p q, (Collective.kinds p rounds).count .allreduceOr =
      (Collective.kinds q rounds).count .allreduceOr) ∧
    ((∀ p, (created p).isSome) ∨ ∀ p, created p = none)

/-- What a process does with the result of its first reduction. -/
def afterReduction (device : Device n) (outOfMemory failed : Bool) :
    Comm n (Option (Interface n)) :=
  if outOfMemory then .done none
  else if failed then .call (.allreduceOr true) fun _ => .done none
  else .done (some ⟨.initial device, 0⟩)

theorem createAll_eq (memRange : Fin n → ℕ) (device : Fin n → Device n)
    (outOfMemory : Fin n → Bool) : createAll memRange device outOfMemory = fun p =>
      .call (.allreduceMax (memRange p)) fun _ =>
        .call (.allreduceOr (outOfMemory p)) (afterReduction (device p) (outOfMemory p)) := by
  funext p
  simp only [createAll, create]
  cases outOfMemory p <;> rfl

/-- Processes that all run out of memory all throw after one reduction. -/
theorem createAll_failed (failed : ∀ p, outOfMemory p = true) :
    Executes (createAll memRange device outOfMemory)
      [fun p => .allreduceMax (memRange p), fun _ => .allreduceOr true] fun _ => none := by
  rw [createAll_eq, funext failed]
  apply Comm.executes_allreduceMax
  apply Comm.executes_allreduceOr
  exact .of_done _

/-- Processes none of which runs out of memory all construct after one reduction. -/
theorem createAll_constructed (fits : ∀ p, outOfMemory p = false) :
    Executes (createAll memRange device outOfMemory)
      [fun p => .allreduceMax (memRange p), fun _ => .allreduceOr false]
      fun p => some ⟨.initial (device p), 0⟩ := by
  rw [createAll_eq, funext fits]
  apply Comm.executes_allreduceMax
  apply Comm.executes_allreduceOr
  simp only [Bool.false_eq_true, exists_false, decide_false]
  exact .of_done _

/-- If only some processes run out of memory, the others wait in a second reduction. -/
theorem not_executes_createAll {p q : Fin n} (failed : outOfMemory p = true)
    (fits : outOfMemory q = false) {rounds : List (Fin n → Collective n)}
    {created : Fin n → Option (Interface n)} :
    ¬Executes (createAll memRange device outOfMemory) rounds created := by
  have : Nonempty (Fin n) := ⟨p⟩
  rw [createAll_eq]
  intro execution
  rcases Executes.call_iff.mp execution with ⟨_, later, _, reduction⟩
  rcases Executes.call_iff.mp reduction with ⟨_, last, _, stuck⟩
  have told : (machine n).outcome (fun p => .allreduceOr (outOfMemory p)) q = true :=
    decide_eq_true ⟨p, failed⟩
  have atEnd : afterReduction (device p) (outOfMemory p)
      ((machine n).outcome (fun p => .allreduceOr (outOfMemory p)) p) = .done none := by
    rw [failed]
    rfl
  have atCall : afterReduction (device q) (outOfMemory q)
      ((machine n).outcome (fun p => .allreduceOr (outOfMemory p)) q) =
        .call (.allreduceOr true) fun _ => .done none := by
    rw [told, fits]
    rfl
  exact Executes.not_of_done_call atEnd atCall stuck

/-- The construction is all-or-none exactly if all processes run out of memory or none does. -/
theorem createdTogether_iff : CreatedTogether memRange device outOfMemory ↔
    (∀ p, outOfMemory p = true) ∨ ∀ p, outOfMemory p = false := by
  constructor
  · rintro ⟨rounds, created, execution, _⟩
    by_contra mixed
    rw [not_or, not_forall, not_forall] at mixed
    rcases mixed with ⟨⟨q, fits⟩, ⟨p, failed⟩⟩
    exact not_executes_createAll (Bool.of_not_eq_false failed) (Bool.of_not_eq_true fits) execution
  · rintro (failed | fits)
    · exact ⟨_, _, createAll_failed failed, fun _ _ => rfl, Or.inr fun _ => rfl⟩
    · exact ⟨_, _, createAll_constructed fits, fun _ _ => rfl, Or.inl fun _ => rfl⟩

/-- The first of two processes runs out of memory. -/
theorem not_createdTogether_two :
    ¬CreatedTogether (fun _ : Fin 2 => 0) (fun _ => .generous 2) (fun p => decide (p = 0)) := by
  rintro ⟨rounds, created, execution, _⟩
  exact not_executes_createAll (p := 0) (q := 1) (by decide) (by decide) execution

end Interface

end Talpf
