import Mathlib.Logic.Relation

/-!
# Observations of deterministic machines

A machine answers queries one after the other until it fails.  Two states are
alike if no sequence of queries tells them apart.  A relation that every query
preserves implies this, and a single sequence of queries disproves it.
-/

namespace Observation

universe u v w

variable {State : Type u} {Query : Type v} {Answer : Type w}

/-- The answers to a sequence of queries, up to the first failure. -/
def answers (ask : State → Query → Option (Answer × State)) :
    State → List Query → List (Option Answer)
  | _, [] => []
  | state, query :: rest =>
      match ask state query with
      | none => [none]
      | some (answer, after) => some answer :: answers ask after rest

/-- No sequence of queries tells two states apart. -/
def Alike (ask : State → Query → Option (Answer × State)) (first second : State) : Prop :=
  ∀ queries, answers ask first queries = answers ask second queries

/-- A query fails in both states, or its answers agree and the states after it are related. -/
def Agree (ask : State → Query → Option (Answer × State)) (related : State → State → Prop)
    (first second : State) (query : Query) : Prop :=
  ask first query = none ∧ ask second query = none ∨
    ∃ answer firstAfter secondAfter, ask first query = some (answer, firstAfter) ∧
      ask second query = some (answer, secondAfter) ∧ related firstAfter secondAfter

variable {ask : State → Query → Option (Answer × State)}

theorem Alike.symm {first second : State} (alike : Alike ask first second) :
    Alike ask second first :=
  fun queries => (alike queries).symm

/-- A relation that all queries preserve. -/
theorem alike_of_agree {related : State → State → Prop}
    (agree : ∀ first second, related first second → ∀ query, Agree ask related first second query)
    {first second : State} (start : related first second) : Alike ask first second := by
  intro queries
  induction queries generalizing first second with
  | nil => rfl
  | cons query rest ih =>
      rcases agree first second start query with
        ⟨fails, failsToo⟩ | ⟨answer, firstAfter, secondAfter, answered, answeredToo, after⟩
      · simp only [answers, fails, failsToo]
      · simp only [answers, answered, answeredToo, ih after]

/-- What is alike stays alike. -/
theorem Alike.agree {first second : State} (alike : Alike ask first second) (query : Query) :
    Agree ask (Alike ask) first second query := by
  have once := alike [query]
  simp only [answers] at once
  cases answered : ask first query with
  | none =>
      cases answeredToo : ask second query with
      | none => exact Or.inl ⟨answered, answeredToo⟩
      | some result =>
          rw [answered, answeredToo] at once
          simp at once
  | some result =>
      cases answeredToo : ask second query with
      | none =>
          rw [answered, answeredToo] at once
          simp at once
      | some other =>
          rcases result with ⟨answer, firstAfter⟩
          rcases other with ⟨answerToo, secondAfter⟩
          rw [answered, answeredToo] at once
          simp only [List.cons.injEq, Option.some.injEq, and_true] at once
          subst once
          refine Or.inr ⟨answer, firstAfter, secondAfter, answered, answeredToo, ?_⟩
          intro queries
          have rest := alike (query :: queries)
          simp only [answers, answered, answeredToo, List.cons.injEq, true_and] at rest
          exact rest

end Observation
