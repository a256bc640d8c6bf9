import Mathlib.Data.List.Perm.Basic
import Mathlib.Data.Set.Card
import Mathlib.Order.Bounds.Basic
import Mathlib.Order.CompletePartialOrder

/-!
# Painting with priorities

A canvas gives each grain a mark, where zero is blank.  A stroke paints a set of
grains in a colour, but never over a grain in a larger colour, so that the
order of strokes does not matter.  Cutting takes pieces of one colour off a
canvas until it is blank.
-/

namespace Painting

universe u

variable {Grain : Type u}

/-- A set of grains and a colour. -/
abbrev Stroke (Grain : Type u) := Set Grain × ℕ

open Classical in
/-- The mark of a colour is its successor. -/
noncomputable def paint (canvas : Grain → ℕ) (stroke : Stroke Grain) : Grain → ℕ := fun grain =>
  if grain ∈ stroke.1 then max (canvas grain) (stroke.2 + 1) else canvas grain

noncomputable def paintAll (canvas : Grain → ℕ) (strokes : List (Stroke Grain)) : Grain → ℕ :=
  strokes.foldl paint canvas

theorem paint_of_mem {canvas : Grain → ℕ} {stroke : Stroke Grain} {grain : Grain}
    (inside : grain ∈ stroke.1) : paint canvas stroke grain = max (canvas grain) (stroke.2 + 1) :=
  if_pos inside

theorem paint_of_notMem {canvas : Grain → ℕ} {stroke : Stroke Grain} {grain : Grain}
    (outside : grain ∉ stroke.1) : paint canvas stroke grain = canvas grain :=
  if_neg outside

theorem paint_comm (canvas : Grain → ℕ) (first second : Stroke Grain) :
    paint (paint canvas first) second = paint (paint canvas second) first := by
  funext grain
  by_cases inFirst : grain ∈ first.1
  · by_cases inSecond : grain ∈ second.1
    · rw [paint_of_mem inSecond, paint_of_mem inFirst, paint_of_mem inFirst, paint_of_mem inSecond]
      exact max_right_comm _ _ _
    · rw [paint_of_notMem inSecond, paint_of_mem inFirst, paint_of_mem inFirst,
        paint_of_notMem inSecond]
  · rw [paint_of_notMem inFirst]
    by_cases inSecond : grain ∈ second.1
    · rw [paint_of_mem inSecond, paint_of_mem inSecond, paint_of_notMem inFirst]
    · rw [paint_of_notMem inSecond, paint_of_notMem inSecond, paint_of_notMem inFirst]

/-- The order of strokes does not matter. -/
theorem paintAll_perm {strokes permuted : List (Stroke Grain)} (perm : strokes.Perm permuted)
    (canvas : Grain → ℕ) : paintAll canvas strokes = paintAll canvas permuted := by
  apply perm.foldl_eq'
  intro first _ second _ painted
  exact paint_comm painted first second

theorem paintAll_eq_zero_iff {canvas : Grain → ℕ} {strokes : List (Stroke Grain)} {grain : Grain} :
    paintAll canvas strokes grain = 0 ↔
      canvas grain = 0 ∧ ∀ stroke ∈ strokes, grain ∉ stroke.1 := by
  induction strokes generalizing canvas with
  | nil => simp [paintAll]
  | cons first rest ih =>
      rw [paintAll, List.foldl_cons, ← paintAll, ih, List.forall_mem_cons]
      by_cases inside : grain ∈ first.1
      · rw [paint_of_mem inside]
        simp [inside]
      · rw [paint_of_notMem inside]
        simp [inside]

theorem paintAll_le_iff {canvas : Grain → ℕ} {strokes : List (Stroke Grain)} {grain : Grain}
    {bound : ℕ} : paintAll canvas strokes grain ≤ bound ↔
      canvas grain ≤ bound ∧ ∀ stroke ∈ strokes, grain ∈ stroke.1 → stroke.2 < bound := by
  induction strokes generalizing canvas with
  | nil => simp [paintAll]
  | cons first rest ih =>
      rw [paintAll, List.foldl_cons, ← paintAll, ih, List.forall_mem_cons]
      by_cases inside : grain ∈ first.1
      · rw [paint_of_mem inside, max_le_iff, Nat.succ_le_iff, and_assoc]
        simp only [inside, forall_const]
      · rw [paint_of_notMem inside]
        simp only [inside, false_implies, true_and]

/-- A mark is the one that was there before or belongs to a stroke, whichever is largest. -/
theorem paintAll_eq_succ_iff {canvas : Grain → ℕ} {strokes : List (Stroke Grain)} {grain : Grain}
    {colour : ℕ} : paintAll canvas strokes grain = colour + 1 ↔
      IsGreatest {c | canvas grain = c + 1 ∨ ∃ stroke ∈ strokes, grain ∈ stroke.1 ∧ stroke.2 = c}
        colour := by
  induction strokes generalizing canvas with
  | nil =>
      simp only [paintAll, List.foldl_nil, List.not_mem_nil, false_and, exists_false, or_false]
      constructor
      · intro same
        refine ⟨same, ?_⟩
        intro c other
        have other : canvas grain = c + 1 := other
        omega
      · exact And.left
  | cons first rest ih =>
      rw [paintAll, List.foldl_cons, ← paintAll, ih]
      by_cases inside : grain ∈ first.1
      · rw [paint_of_mem inside]
        have firstLe : first.2 ≤ colour → (max (canvas grain) (first.2 + 1) = colour + 1 ↔
            canvas grain = colour + 1 ∨ first.2 = colour ∧ canvas grain ≤ colour + 1) := by
          omega
        constructor
        · rintro ⟨member, upper⟩
          have some : max (canvas grain) (first.2 + 1) - 1 ≤ colour := upper (Or.inl (by omega))
          refine ⟨?_, ?_⟩
          · rcases member with painted | ⟨stroke, inRest, covers, same⟩
            · rcases (firstLe (by omega)).mp painted with old | ⟨fresh, _⟩
              · exact Or.inl old
              · exact Or.inr ⟨first, List.mem_cons_self, inside, fresh⟩
            · exact Or.inr ⟨stroke, List.mem_cons_of_mem _ inRest, covers, same⟩
          · rintro c (old | ⟨stroke, inAll, covers, same⟩)
            · omega
            · rcases List.mem_cons.mp inAll with rfl | inRest
              · omega
              · exact upper (Or.inr ⟨stroke, inRest, covers, same⟩)
        · rintro ⟨member, upper⟩
          have bound : first.2 ≤ colour :=
            upper (Or.inr ⟨first, List.mem_cons_self, inside, rfl⟩)
          have oldBound : canvas grain ≤ colour + 1 := by
            by_contra above
            have : canvas grain - 1 ≤ colour := upper (Or.inl (by omega))
            omega
          refine ⟨?_, ?_⟩
          · rcases member with old | ⟨stroke, inAll, covers, same⟩
            · exact Or.inl ((firstLe bound).mpr (Or.inl old))
            · rcases List.mem_cons.mp inAll with rfl | inRest
              · exact Or.inl ((firstLe bound).mpr (Or.inr ⟨same, oldBound⟩))
              · exact Or.inr ⟨stroke, inRest, covers, same⟩
          · rintro c (painted | ⟨stroke, inRest, covers, same⟩)
            · omega
            · exact upper (Or.inr ⟨stroke, List.mem_cons_of_mem _ inRest, covers, same⟩)
      · rw [paint_of_notMem inside]
        have same : {c | canvas grain = c + 1 ∨
            ∃ stroke ∈ first :: rest, grain ∈ stroke.1 ∧ stroke.2 = c} =
            {c | canvas grain = c + 1 ∨ ∃ stroke ∈ rest, grain ∈ stroke.1 ∧ stroke.2 = c} := by
          ext c
          simp [inside]
        rw [same]

open Classical in
noncomputable def erase (canvas : Grain → ℕ) (part : Set Grain) : Grain → ℕ := fun grain =>
  if grain ∈ part then 0 else canvas grain

/-- Pieces of one colour that leave a blank canvas. -/
inductive Cuts : (Grain → ℕ) → List (Stroke Grain) → Prop
  | blank {canvas : Grain → ℕ} : (∀ grain, canvas grain = 0) → Cuts canvas []
  | piece {canvas : Grain → ℕ} {part : Set Grain} {colour : ℕ} {rest : List (Stroke Grain)} :
      (∀ grain ∈ part, canvas grain = colour + 1) → Cuts (erase canvas part) rest →
      Cuts canvas ((part, colour) :: rest)

theorem erase_of_mem {canvas : Grain → ℕ} {part : Set Grain} {grain : Grain}
    (inside : grain ∈ part) : erase canvas part grain = 0 :=
  if_pos inside

theorem erase_of_notMem {canvas : Grain → ℕ} {part : Set Grain} {grain : Grain}
    (outside : grain ∉ part) : erase canvas part grain = canvas grain :=
  if_neg outside

namespace Cuts

variable {canvas : Grain → ℕ} {pieces : List (Stroke Grain)}

/-- Every grain of a piece has its colour. -/
theorem coloured (cuts : Cuts canvas pieces) :
    ∀ piece ∈ pieces, ∀ grain ∈ piece.1, canvas grain = piece.2 + 1 := by
  induction cuts with
  | blank _ => simp
  | @piece canvas part colour rest single _ ih =>
      intro piece member grain inside
      rcases List.mem_cons.mp member with rfl | later
      · exact single grain inside
      · have after := ih piece later grain inside
        by_cases cut : grain ∈ part
        · rw [erase_of_mem cut] at after
          omega
        · rw [erase_of_notMem cut] at after
          exact after

/-- The pieces consist of the grains that are not blank. -/
theorem mem_piece_iff (cuts : Cuts canvas pieces) (grain : Grain) :
    (∃ piece ∈ pieces, grain ∈ piece.1) ↔ canvas grain ≠ 0 := by
  constructor
  · rintro ⟨piece, member, inside⟩
    rw [cuts.coloured piece member grain inside]
    exact Nat.succ_ne_zero _
  · intro marked
    induction cuts with
    | blank none => exact absurd (none grain) marked
    | @piece canvas part colour rest single _ ih =>
        by_cases cut : grain ∈ part
        · exact ⟨_, List.mem_cons_self, cut⟩
        · have kept : erase canvas part grain = canvas grain := erase_of_notMem cut
          rw [← kept] at marked
          rcases ih marked with ⟨piece, later, inside⟩
          exact ⟨piece, List.mem_cons_of_mem _ later, inside⟩

/-- The colour of a grain is that of the piece that contains it. -/
theorem colour_iff (cuts : Cuts canvas pieces) (grain : Grain) (colour : ℕ) :
    (∃ piece ∈ pieces, grain ∈ piece.1 ∧ piece.2 = colour) ↔ canvas grain = colour + 1 := by
  constructor
  · rintro ⟨piece, member, inside, rfl⟩
    exact cuts.coloured piece member grain inside
  · intro marked
    rcases (cuts.mem_piece_iff grain).mpr (by omega) with ⟨piece, member, inside⟩
    have same := cuts.coloured piece member grain inside
    exact ⟨piece, member, inside, by omega⟩

/-- No two pieces overlap. -/
theorem disjoint (cuts : Cuts canvas pieces) :
    pieces.Pairwise fun first second => Disjoint first.1 second.1 := by
  induction cuts with
  | blank _ => exact List.Pairwise.nil
  | @piece canvas part colour rest single remaining ih =>
      apply List.Pairwise.cons _ ih
      intro piece member
      rw [Set.disjoint_left]
      intro grain cut inside
      have after := remaining.coloured piece member grain inside
      rw [erase_of_mem cut] at after
      omega

end Cuts

/-- Cutting a piece off leaves fewer grains with a mark. -/
theorem ncard_erase_lt {canvas : Grain → ℕ} {part : Set Grain} {grain : Grain}
    (finite : {g | canvas g ≠ 0}.Finite) (inside : grain ∈ part) (marked : canvas grain ≠ 0) :
    {g | erase canvas part g ≠ 0}.ncard < {g | canvas g ≠ 0}.ncard := by
  apply Set.ncard_lt_ncard _ finite
  refine ⟨?_, ?_⟩
  · intro g left
    by_cases cut : g ∈ part
    · exact absurd (erase_of_mem cut) left
    · have kept : erase canvas part g = canvas g := erase_of_notMem cut
      change canvas g ≠ 0
      rw [← kept]
      exact left
  · intro subset
    exact subset (a := grain) marked (erase_of_mem inside)

end Painting
