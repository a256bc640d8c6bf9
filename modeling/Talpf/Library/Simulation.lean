import Talpf.Library.Transition
import Mathlib.Data.List.Induction

/-!
# Simulation of transition systems

Some actions of a system show labels to its users, others are silent.  A system
refines another one if the latter shows everything that the former shows.  It
suffices to answer every single step of the one by steps of the other with the
same labels, so that the states stay related.
-/

namespace Transition

universe u v w

/-- A transition system with a starting state, a rule and what its actions show -/
structure System (State : Type u) (Action : Type v) (Label : Type w) where
  start : State
  step : State → Action → State → Prop
  permitted : State → Action → Prop
  shows : Action → List Label

namespace System

variable {State : Type u} {Action : Type v} {Label : Type w}

/-- Permitted steps from one state to another, with everything that they show -/
inductive Continues (system : System State Action Label) (from_ : State) :
    List Label → State → Prop where
  | refl : Continues system from_ [] from_
  | tail {labels : List Label} {before after : State} {action : Action}
      (earlier : Continues system from_ labels before) (allowed : system.permitted before action)
      (taken : system.step before action after) :
      Continues system from_ (labels ++ system.shows action) after

/-- The runs of a system -/
abbrev Runs (system : System State Action Label) : List Label → State → Prop :=
  system.Continues system.start

variable {system : System State Action Label} {first second third : State}
  {labels more : List Label}

namespace Continues

theorem single {action : Action} (allowed : system.permitted first action)
    (taken : system.step first action second) :
    system.Continues first (system.shows action) second := .tail .refl allowed taken

theorem trans (earlier : system.Continues first labels second)
    (later : system.Continues second more third) :
    system.Continues first (labels ++ more) third := by
  induction later with
  | refl =>
      rw [List.append_nil]
      exact earlier
  | tail _ allowed taken ih =>
      rw [← List.append_assoc]
      exact ih.tail allowed taken

theorem reachable (run : system.Continues first labels second) :
    Reachable system.step system.permitted first second := by
  induction run with
  | refl => exact .refl
  | tail _ allowed taken ih => exact ih.tail allowed taken

/-- Everybody goes on, one after the other, and the labels follow one another. -/
theorem each {Index : Type*} (stage : List Index → State) {label : Index → List Label}
    {everybody : List Index} (run : system.Continues first labels (stage []))
    (different : everybody.Nodup)
    (next : ∀ done index, index ∉ done →
      system.Continues (stage done) (label index) (stage (done ++ [index]))) :
    system.Continues first (labels ++ everybody.flatMap label) (stage everybody) := by
  induction everybody using List.reverseRecOn with
  | nil =>
      rw [List.flatMap_nil, List.append_nil]
      exact run
  | append_singleton done index ih =>
      rw [List.nodup_append] at different
      have fresh : index ∉ done := fun member =>
        different.2.2 index member index (List.mem_singleton_self index) rfl
      rw [List.flatMap_append, List.flatMap_singleton, ← List.append_assoc]
      exact (ih different.1).trans (next done index fresh)

end Continues

section Simulation

universe u' v'

variable {Abstract : Type u'} {Step : Type v'} {abstract : System Abstract Step Label}
  {related : State → Abstract → Prop}

/-- A run is answered by a run of the other system that shows the same. -/
theorem Continues.simulated {start : Abstract}
    (answers : ∀ before state action after,
      Reachable system.step system.permitted first before → related before state →
      system.permitted before action → system.step before action after →
        ∃ next, abstract.Continues state (system.shows action) next ∧ related after next)
    (initially : related first start) (run : system.Continues first labels second) :
    ∃ state, abstract.Continues start labels state ∧ related second state := by
  induction run with
  | refl => exact ⟨start, .refl, initially⟩
  | tail earlier allowed taken ih =>
      rcases ih with ⟨state, answered, isRelated⟩
      rcases answers _ state _ _ earlier.reachable isRelated allowed taken with
        ⟨next, continues, isNext⟩
      exact ⟨next, answered.trans continues, isNext⟩

end Simulation

end System

end Transition
