import Mathlib.Data.List.Basic
import Mathlib.Data.List.TakeWhile
import Mathlib.Order.Lattice

/-!
# Cutting sorted lists

In a list that is sorted for a predicate, so that the predicate fails from some
point on, `takeWhile` and `dropWhile` cut exactly there.  Loops that look for
the least or the largest value of a list end with a bound that is attained.
-/

namespace Sorted

variable {α : Type}

/-- Nothing that is dropped up to comes back behind the cut. -/
theorem not_of_mem_dropWhile {p : α → Bool} {entries : List α}
    (sorted : entries.Pairwise fun a b => p b = true → p a = true) {entry : α}
    (member : entry ∈ entries.dropWhile p) : p entry = false := by
  induction entries with
  | nil => cases member
  | cons first rest ih =>
      have later := List.pairwise_cons.mp sorted
      by_cases holds : p first = true
      · rw [List.dropWhile_cons_of_pos holds] at member
        exact ih later.2 member
      · rw [List.dropWhile_cons_of_neg holds] at member
        rcases List.mem_cons.mp member with rfl | behind
        · exact Bool.eq_false_iff.mpr holds
        · apply Bool.eq_false_iff.mpr
          intro holdsBehind
          exact holds (later.1 entry behind holdsBehind)

/-- A list that is cut already is cut there. -/
theorem takeWhile_append_of_cut {p : α → Bool} {front back : List α}
    (holds : ∀ entry ∈ front, p entry = true) (fails : ∀ entry ∈ back, p entry = false) :
    (front ++ back).takeWhile p = front ∧ (front ++ back).dropWhile p = back := by
  rw [List.takeWhile_append_of_pos holds, List.dropWhile_append_of_pos holds]
  cases back with
  | nil => simp
  | cons first rest =>
      have stops : ¬p first = true := Bool.eq_false_iff.mp (fails first List.mem_cons_self)
      rw [List.takeWhile_cons_of_neg stops, List.dropWhile_cons_of_neg stops, List.append_nil]
      exact ⟨rfl, rfl⟩

variable {β : Type} [LinearOrder β]

/-- The loop for the least value. -/
theorem foldl_least (value : α → β) (entries : List α) (start : β) :
    let least := entries.foldl
      (fun least entry => if value entry < least then value entry else least) start
    least ≤ start ∧ (∀ entry ∈ entries, least ≤ value entry) ∧
      (least = start ∨ ∃ entry ∈ entries, least = value entry) := by
  induction entries generalizing start with
  | nil => exact ⟨le_refl start, by simp, Or.inl rfl⟩
  | cons first rest ih =>
      simp only [List.foldl_cons]
      rcases ih (if value first < start then value first else start) with
        ⟨leStart, leRest, attained⟩
      by_cases smaller : value first < start
      · rw [if_pos smaller] at leStart leRest attained ⊢
        refine ⟨leStart.trans smaller.le, ?_, Or.inr ?_⟩
        · intro entry member
          rcases List.mem_cons.mp member with rfl | behind
          · exact leStart
          · exact leRest entry behind
        · rcases attained with same | ⟨entry, behind, same⟩
          · exact ⟨first, List.mem_cons_self, same⟩
          · exact ⟨entry, List.mem_cons_of_mem _ behind, same⟩
      · rw [if_neg smaller] at leStart leRest attained ⊢
        refine ⟨leStart, ?_, ?_⟩
        · intro entry member
          rcases List.mem_cons.mp member with rfl | behind
          · exact leStart.trans (not_lt.mp smaller)
          · exact leRest entry behind
        · rcases attained with same | ⟨entry, behind, same⟩
          · exact Or.inl same
          · exact Or.inr ⟨entry, List.mem_cons_of_mem _ behind, same⟩

/-- The loop for the largest value. -/
theorem foldl_largest (value : α → β) (entries : List α) (start : β) :
    let largest := entries.foldl
      (fun largest entry => if value entry > largest then value entry else largest) start
    start ≤ largest ∧ (∀ entry ∈ entries, value entry ≤ largest) ∧
      (largest = start ∨ ∃ entry ∈ entries, largest = value entry) :=
  foldl_least (β := βᵒᵈ) value entries start

end Sorted
