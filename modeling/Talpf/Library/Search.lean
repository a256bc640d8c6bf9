import Mathlib.Logic.Function.Iterate

/-!
# Searching for a place to stop

A loop that does nothing but move on until it finds a place to stop.  It may
never find one, so it runs with fuel.
-/

namespace Search

universe u

variable {α : Type u}

/-- Move on until there is a place to stop.  `none` if that takes longer than there is fuel. -/
def search (stop : α → Bool) (next : α → α) : ℕ → α → Option α
  | 0, _ => none
  | fuel + 1, place => if stop place then some place else search stop next fuel (next place)

/-- The loop ends at some place. -/
def Finds (stop : α → Bool) (next : α → α) (start place : α) : Prop :=
  ∃ fuel, search stop next fuel start = some place

variable {stop : α → Bool} {next : α → α} {start place other : α}

theorem search_eq_some_iff {fuel : ℕ} : search stop next fuel start = some place ↔
    ∃ k < fuel, next^[k] start = place ∧ stop place = true ∧
      ∀ j < k, stop (next^[j] start) = false := by
  induction fuel generalizing start with
  | zero => simp [search]
  | succ fuel ih =>
      rw [search]
      split
      next here =>
        constructor
        · intro found
          obtain rfl := Option.some.inj found
          exact ⟨0, Nat.succ_pos fuel, rfl, here, fun j before => absurd before (Nat.not_lt_zero j)⟩
        · rintro ⟨k, _, reached, _, passed⟩
          cases k with
          | zero => exact congrArg some reached
          | succ k =>
              have first := passed 0 (Nat.succ_pos k)
              rw [Function.iterate_zero_apply, here] at first
              cases first
      next here =>
        rw [ih]
        constructor
        · rintro ⟨k, enough, reached, stops, passed⟩
          refine ⟨k + 1, Nat.succ_lt_succ enough, reached, stops, ?_⟩
          intro j before
          cases j with
          | zero => exact Bool.eq_false_iff.mpr here
          | succ j => exact passed j (Nat.lt_of_succ_lt_succ before)
        · rintro ⟨k, enough, reached, stops, passed⟩
          cases k with
          | zero =>
              rw [Function.iterate_zero_apply] at reached
              subst reached
              exact absurd stops here
          | succ k =>
              exact ⟨k, Nat.lt_of_succ_lt_succ enough, reached, stops,
                fun j before => passed (j + 1) (Nat.succ_lt_succ before)⟩

/-- The loop ends at the first place to stop at. -/
theorem finds_iff : Finds stop next start place ↔
    ∃ k, next^[k] start = place ∧ stop place = true ∧ ∀ j < k, stop (next^[j] start) = false := by
  simp only [Finds, search_eq_some_iff]
  constructor
  · rintro ⟨fuel, k, _, found⟩
    exact ⟨k, found⟩
  · rintro ⟨k, found⟩
    exact ⟨k + 1, k, Nat.lt_succ_self k, found⟩

theorem finds_here (stops : stop start = true) : Finds stop next start start :=
  finds_iff.mpr ⟨0, rfl, stops, fun j before => absurd before j.not_lt_zero⟩

theorem search_of_le {fuel more : ℕ} (le : fuel ≤ more)
    (found : search stop next fuel start = some place) :
    search stop next more start = some place := by
  rcases search_eq_some_iff.mp found with ⟨k, enough, rest⟩
  exact search_eq_some_iff.mpr ⟨k, Nat.lt_of_lt_of_le enough le, rest⟩

theorem Finds.unique (found : Finds stop next start place)
    (again : Finds stop next start other) : place = other := by
  rcases found with ⟨fuel, found⟩
  rcases again with ⟨more, again⟩
  have first := search_of_le (Nat.le_max_left fuel more) found
  rw [search_of_le (Nat.le_max_right fuel more) again] at first
  exact (Option.some.inj first).symm

end Search
