import Mathlib.Data.List.Nodup
import Mathlib.Logic.Relation

/-!
# Runs of guarded transition systems

A transition system relates states by labelled actions.  Which actions an
environment may take in a state is a separate rule, so that one step relation
serves under several disciplines.  This file gives the runs that follow a rule
and the induction over them.
-/

namespace Transition

universe u v

variable {State : Type u} {Action : Type v}

/-- One step that the rule permits. -/
def Next (step : State → Action → State → Prop) (permitted : State → Action → Prop)
    (before after : State) : Prop :=
  ∃ action, permitted before action ∧ step before action after

/-- The states that runs of permitted steps lead to from a starting state. -/
def Reachable (step : State → Action → State → Prop) (permitted : State → Action → Prop)
    (start : State) : State → Prop :=
  Relation.ReflTransGen (Next step permitted) start

namespace Reachable

variable {step : State → Action → State → Prop} {permitted : State → Action → Prop}
  {start state after : State}

theorem refl : Reachable step permitted start start := Relation.ReflTransGen.refl

theorem tail {action : Action} (run : Reachable step permitted start state)
    (allowed : permitted state action) (taken : step state action after) :
    Reachable step permitted start after :=
  Relation.ReflTransGen.tail run ⟨action, allowed, taken⟩

theorem trans (first : Reachable step permitted start state)
    (second : Reachable step permitted state after) : Reachable step permitted start after :=
  Relation.ReflTransGen.trans first second

/-- A property of the starting state that every permitted step keeps holds along every run. -/
theorem invariant {Holds : State → Prop} (run : Reachable step permitted start state)
    (initially : Holds start)
    (preserved : ∀ before action after, Holds before → permitted before action →
      step before action after → Holds after) : Holds state := by
  induction run with
  | refl => exact initially
  | tail _ next ih =>
      rcases next with ⟨action, allowed, taken⟩
      exact preserved _ action _ ih allowed taken

/-- The same induction with a property already known of all reachable states at hand. -/
theorem invariant_of {Known Holds : State → Prop} (run : Reachable step permitted start state)
    (known : ∀ reached, Reachable step permitted start reached → Known reached)
    (initially : Holds start)
    (preserved : ∀ before action after, Known before → Known after → Holds before →
      permitted before action → step before action after → Holds after) :
    Holds state := by
  induction run with
  | refl => exact initially
  | tail earlier next ih =>
      rcases next with ⟨action, allowed, taken⟩
      exact preserved _ action _ (known _ earlier)
        (known _ (Reachable.tail earlier allowed taken)) ih allowed taken

/-- A run under a stricter rule is a run under a weaker one. -/
theorem mono {weaker : State → Action → Prop}
    (run : Reachable step permitted start state)
    (implied : ∀ state action, permitted state action → weaker state action) :
    Reachable step weaker start state := by
  induction run with
  | refl => exact Reachable.refl
  | tail _ next ih =>
      rcases next with ⟨action, allowed, taken⟩
      exact ih.tail (implied _ _ allowed) taken

/-- Everybody goes on, one after the other. -/
theorem each {Index : Type*} (stage : List Index → State) {everybody : List Index}
    (run : Reachable step permitted start (stage [])) (different : everybody.Nodup)
    (next : ∀ done index, index ∉ done →
      Reachable step permitted (stage done) (stage (index :: done))) :
    Reachable step permitted start (stage everybody) := by
  induction everybody with
  | nil => exact run
  | cons index done ih =>
      rcases List.nodup_cons.mp different with ⟨fresh, others⟩
      exact (ih others).trans (next done index fresh)

end Reachable

end Transition
