import Talpf.SparseSet.IntSet

/-!
# Iterating over a sparse set

Iteration yields the entries of the permutation.  These are offsets from the start of the
range, and not the members themselves, which `contains` and `find` take as arguments.  So
iteration yields the members only of a set whose range starts at zero.
-/

namespace Talpf.IntSet

variable {set : IntSet} {finite : FiniteSet} {x : ℤ}

end Talpf.IntSet
