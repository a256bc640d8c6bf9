import Mathlib.Data.List.Range
import Talpf.Library.Placement

/-!
# The arguments of the program

The initializer runs before `main` and lets MPI read the arguments.  What MPI
returns has to be copied back into the memory of the original arguments, because
the caller of `main` still has the original `argc` and `argv`.  The engine has
been selected already, and `initRoot` has not thrown.  The assertions are
about the answer of MPI.
-/

namespace Talpf

open Placement

/-- The memory of an argument; `none` is the terminator. -/
abbrev Cell (α : Type) := List (Option α)

namespace Initializer

variable {α : Type}

/-- The cell that an argument comes in. -/
def cell (argument : List α) : Cell α := argument.map some ++ [none]

/-- The text in a cell, if it is terminated. -/
def text : Cell α → Option (List α)
  | [] => none
  | none :: _ => some []
  | some byte :: rest => (text rest).map (byte :: ·)

/-- Writes the bytes of the source and fills up with terminators. -/
def strncpy (destination : Cell α) (source : List α) (count : ℕ) : Option (Cell α) :=
  if count ≤ destination.length then
    some ((List.range count).map (source[·]?) ++ destination.drop count)
  else none

/-- The text that a pointer points to; `none` is the null pointer. -/
def read (memory : List (Cell α)) (pointer : Option ℕ) : Option (List α) := do
  let index ← pointer
  let found ← memory[index]?
  text found

/-- A call of `strncpy` with a pointer. -/
structure Write (α : Type) where
  pointer : Option ℕ
  source : List α
  count : ℕ

/-- `none` when the write leaves its cell, or has none. -/
def Write.apply (write : Write α) (memory : List (Cell α)) : Option (List (Cell α)) := do
  let index ← write.pointer
  let found ← memory[index]?
  let written ← strncpy found write.source write.count
  some (memory.set index written)

/-- The copies for all positions. -/
def copies (argv : List (Option ℕ)) (modified : List (List α)) (arglengths : List ℕ) :
    List (Write α) :=
  List.zipWith (fun pointer (source, count) => ⟨pointer, source, count⟩) argv
    (modified.zip arglengths)

section Placing

variable (arglengths : List ℕ)

end Placing

/-- The same array without some of the pointers; what is behind them is arbitrary. -/
structure Squeezed (argc : ℕ) where
  kept : List ℕ
  rest : List (Option ℕ)
  isSublist : kept.Sublist (List.range argc)
  rest_lt : ∀ index, some index ∈ rest → index < argc
  length_eq : kept.length + rest.length = argc

/-- The arguments that MPI returns. -/
inductive Answer (α : Type) (argc : ℕ) where
  | newArray (arguments : List (List α)) (atMost : arguments.length ≤ argc)
  | inPlace (squeezed : Squeezed argc)

def Squeezed.argv {argc : ℕ} (squeezed : Squeezed argc) : List (Option ℕ) :=
  squeezed.kept.map some ++ squeezed.rest

/-- How the initializer ends; after a write or read outside of a cell nothing is known. -/
inductive Ending (α : Type) where
  | aborted
  | undefined
  | returned (memory : List (Cell α)) (argv : List (Option ℕ))

section Loops

variable {arglengths : List ℕ} {newArgv : List (List α)} {size newPos : ℕ}
  {modified cells : List (List α)}

end Loops

section CopyBack

variable {memory : List (Cell α)} {argv : List (Option ℕ)} {arglengths : List ℕ}
  {newArgv placed : List (List α)}

end CopyBack

end Initializer

end Talpf
