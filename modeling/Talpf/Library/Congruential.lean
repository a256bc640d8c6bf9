import Mathlib.Algebra.Field.GeomSum
import Mathlib.Logic.Function.Iterate
import Mathlib.Tactic.Ring

/-!
# Congruential sequences

The iterates of an affine map `x ↦ a * x + c` of a commutative ring.  Several
steps at once are again an affine map, whose increment is a geometric sum.
-/

namespace Congruential

universe u

variable {R : Type u} [CommRing R]

open Finset

/-- One step of the sequence. -/
def affine (a c x : R) : R := a * x + c

/-- The increment of several steps. -/
def increment (a c : R) (n : ℕ) : R := c * ∑ i ∈ range n, a ^ i

variable (a c : R)

theorem iterate_affine (n : ℕ) (x : R) :
    (affine a c)^[n] x = affine (a ^ n) (increment a c n) x := by
  induction n with
  | zero => simp [affine, increment]
  | succ n ih =>
      rw [Function.iterate_succ_apply', ih, affine, affine, affine, increment, increment,
        geom_sum_succ, pow_succ']
      ring

/-- The sequence that is started at the `p`-th place and skips `n` places at each step. -/
theorem iterate_skipping (p n k : ℕ) (x : R) :
    (affine (a ^ n) (increment a c n))^[k] ((affine a c)^[p] x) = (affine a c)^[p + k * n] x := by
  have skips : (affine a c)^[n] = affine (a ^ n) (increment a c n) :=
    funext (iterate_affine a c n)
  rw [← skips, ← Function.iterate_mul, ← Function.iterate_add_apply, Nat.mul_comm n k,
    Nat.add_comm p]

/-- A sequence with the right multiplier skips `n` places if and only if it begins at the right
place and has the right increment. -/
theorem skips_iff (p n : ℕ) (x y d : R) :
    (∀ k, (affine (a ^ n) d)^[k] y = (affine a c)^[p + k * n] x) ↔
      y = (affine a c)^[p] x ∧ d = increment a c n := by
  constructor
  · intro skips
    have begins : y = (affine a c)^[p] x := by simpa using skips 0
    refine ⟨begins, ?_⟩
    have next := skips 1
    rw [← iterate_skipping, Function.iterate_one, Function.iterate_one, begins] at next
    exact add_left_cancel next
  · rintro ⟨rfl, rfl⟩ k
    exact iterate_skipping a c p n k x

end Congruential
