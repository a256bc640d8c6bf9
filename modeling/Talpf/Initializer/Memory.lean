import Talpf.Initializer

/-!
# The bytes after several copies

Every byte of the memory is the one that the last copy to it has left there, or
what it was before.  What a pointer points to is determined by these bytes.
-/

namespace Talpf

namespace Initializer

variable {α : Type}

section Cells

variable {arguments : List (List α)} {argument : List α} {index : ℕ}

end Cells

namespace Write

/-- The write changes the byte. -/
def Covers (write : Write α) (index position : ℕ) : Prop :=
  write.pointer = some index ∧ position < write.count

instance (write : Write α) (index position : ℕ) : Decidable (write.Covers index position) :=
  inferInstanceAs (Decidable (_ ∧ _))

/-- The write stays in its cell. -/
def Fits (write : Write α) (capacities : List ℕ) : Prop :=
  ∃ index capacity, write.pointer = some index ∧ capacities[index]? = some capacity ∧
    write.count ≤ capacity

variable {write : Write α} {memory written : List (Cell α)} {index position : ℕ}

end Write

section Last

variable {write : Write α} {writes : List (Write α)} {index position : ℕ}

end Last

section Run

variable {writes : List (Write α)} {memory written : List (Cell α)}

end Run

end Initializer

end Talpf
