import Talpf.Initializer.Memory

/-!
# Copying back

The copies use the recorded length of a position for the pointer that is there
now.  In a new array these belong together, as the original array has not been
changed.  If pointers have been squeezed out of the array, a pointer may be null
or point to another cell, which may be smaller or hold another argument.
-/

namespace Talpf

open Placement

namespace Initializer

variable {α : Type}

/-- The new arguments in an array that has been squeezed. -/
def Squeezed.newArgv (arguments : List (List α)) (squeezed : Squeezed arguments.length) :
    List (List α) :=
  squeezed.kept.filterMap (arguments[·]?)

def Answer.newArgv {arguments : List (List α)} : Answer α arguments.length → List (List α)
  | .newArray newArgv _ => newArgv
  | .inPlace squeezed => squeezed.newArgv

/-- A position with a recorded length has room for a text of `taken` bytes: its pointer points to a
cell that is at most one byte too short for a terminator, and if the text is as long as recorded,
the argument of the cell is, too. -/
def Suits (lengths : List ℕ) (taken recorded : ℕ) (pointer : Option ℕ) : Prop :=
  ∃ index own, pointer = some index ∧ lengths[index]? = some own ∧ recorded ≤ own + 1 ∧
    (taken = recorded → own = recorded)

/-- The recorded lengths suit the pointers that are next to them now.  A position takes the next
argument if that is not longer than the recorded length, and the empty text otherwise. -/
def Harmless (lengths : List ℕ) : List ℕ → List (ℕ × Option ℕ) → Prop
  | _, [] => True
  | [], (recorded, pointer) :: positions =>
      Suits lengths 0 recorded pointer ∧ Harmless lengths [] positions
  | size :: sizes, (recorded, pointer) :: positions =>
      if size ≤ recorded then
        Suits lengths size recorded pointer ∧ Harmless lengths sizes positions
      else Suits lengths 0 recorded pointer ∧ Harmless lengths (size :: sizes) positions

/-- No two pointers point to the same cell. -/
def Separate (argv : List (Option ℕ)) : Prop :=
  argv.Pairwise fun pointer other => pointer = none ∨ pointer ≠ other

/-- No two pointers of an array that has been squeezed point to the same cell. -/
def Answer.Separate {arguments : List (List α)} : Answer α arguments.length → Prop
  | .newArray _ _ => True
  | .inPlace squeezed => Initializer.Separate squeezed.argv

/-- There is a new array, nothing has been squeezed out of the original one, or the pointers that
are in it now point to different cells that the lengths suit. -/
def Answer.Safe {arguments : List (List α)} : Answer α arguments.length → Prop
  | .newArray _ _ => True
  | .inPlace squeezed => squeezed.kept.length = arguments.length ∨
      Initializer.Separate squeezed.argv ∧ Harmless (arguments.map List.length)
        ((squeezed.newArgv arguments).map List.length)
        ((arguments.map List.length).zip squeezed.argv)

section CopyBack

variable {arguments newArgv placed : List (List α)} {argv : List (Option ℕ)}

/-- Different positions have pointers to different cells. -/
theorem Separate.position (separate : Separate argv) {left right index : ℕ}
    (isLeft : argv[left]? = some (some index)) (isRight : argv[right]? = some (some index)) :
    left = right := by
  have apart : ∀ {i j : ℕ}, argv[i]? = some (some index) → argv[j]? = some (some index) →
      ¬i < j := by
    intro i j isFirst isSecond less
    rcases List.getElem?_eq_some_iff.mp isFirst with ⟨inside, first⟩
    rcases List.getElem?_eq_some_iff.mp isSecond with ⟨insideToo, second⟩
    rcases List.pairwise_iff_getElem.mp separate i j inside insideToo less with null | differ
    · rw [first] at null
      cases null
    · exact differ (first.trans second.symm)
  exact le_antisymm (Nat.not_lt.mp (apart isRight isLeft)) (Nat.not_lt.mp (apart isLeft isRight))

end CopyBack

namespace Squeezed

variable {arguments : List (List α)} (squeezed : Squeezed arguments.length)

end Squeezed

end Initializer

end Talpf
