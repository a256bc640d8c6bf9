import Mathlib.Data.Int.CardIntervalMod
import Mathlib.Data.List.Nodup
import Talpf.Process.Nesting

/-!
# The groups that serve the requested processes

`exec` splits a world by the remainders of the pids.  The requested processes are the
first ones in their subgroups, whose sizes differ by at most one.
-/

namespace Talpf.Nesting

variable {world : List ℕ} {requested pid p : ℕ}

@[simp]
theorem mem_subgroup :
    p ∈ subgroup world requested pid ↔ p ∈ world ∧ world.idxOf p % requested = pid := by
  simp [subgroup]

theorem subgroup_nodup (nodup : world.Nodup) : (subgroup world requested pid).Nodup :=
  nodup.filter _

theorem map_idxOf (nodup : world.Nodup) :
    (world.map fun p => world.idxOf p) = List.range world.length := by
  apply List.ext_getElem
  · simp
  · intro i left right
    simp [nodup.idxOf_getElem]

theorem idxOf_of_getElem? (nodup : world.Nodup) (found : world[pid]? = some p) :
    world.idxOf p = pid := by
  rcases List.getElem?_eq_some_iff.mp found with ⟨inside, rfl⟩
  exact nodup.idxOf_getElem pid inside

theorem getElem?_idxOf (member : p ∈ world) : world[world.idxOf p]? = some p := by
  have inside : world.idxOf p < world.length := List.idxOf_lt_length_of_mem member
  rw [List.getElem?_eq_getElem inside, List.getElem_idxOf]

/-- A requested process is the root of its subgroup. -/
theorem head?_subgroup (nodup : world.Nodup) (below : pid < requested)
    (enough : requested ≤ world.length) :
    (subgroup world requested pid).head? = world[pid]? := by
  have inside : pid < world.length := Nat.lt_of_lt_of_le below enough
  have first : (subgroup world requested pid).head? = some world[pid] := by
    rw [subgroup, List.head?_filter, List.find?_eq_some_iff_getElem]
    refine ⟨?_, pid, inside, rfl, ?_⟩
    · rw [nodup.idxOf_getElem, Nat.mod_eq_of_lt below, decide_eq_true_eq]
    · intro i earlier
      have small : i < requested := Nat.lt_trans earlier below
      rw [nodup.idxOf_getElem, Nat.mod_eq_of_lt small]
      simp [Nat.ne_of_lt earlier]
  rw [first, List.getElem?_eq_getElem inside]

/-- The requested processes come first. -/
theorem filter_idxOf_lt (nodup : world.Nodup) :
    (world.filter fun p => world.idxOf p < requested) = world.take requested := by
  have apart := List.disjoint_take_drop nodup (Nat.le_refl requested)
  have inside : (world.take requested).filter (fun p => world.idxOf p < requested) =
      world.take requested := by
    rw [List.filter_eq_self]
    intro p member
    exact decide_eq_true (List.mem_take_iff_idxOf_lt (List.mem_of_mem_take member) |>.mp member)
  have beyond : (world.drop requested).filter (fun p => world.idxOf p < requested) = [] := by
    rw [List.filter_eq_nil_iff]
    intro p member small
    refine apart ?_ member
    exact (List.mem_take_iff_idxOf_lt (List.mem_of_mem_drop member)).mpr (of_decide_eq_true small)
  conv_lhs =>
    arg 2
    rw [← List.take_append_drop requested world]
  rw [List.filter_append, inside, beyond, List.append_nil]

theorem idxOf_take (member : p ∈ world.take requested) :
    (world.take requested).idxOf p = world.idxOf p := by
  conv_rhs => rw [← List.take_append_drop requested world]
  rw [List.idxOf_append_of_mem member]

theorem length_subgroup (nodup : world.Nodup) (below : pid < requested) :
    (subgroup world requested pid).length =
      world.length / requested + if pid < world.length % requested then 1 else 0 := by
  have counted : (subgroup world requested pid).length =
      world.length.count fun i => i ≡ pid [MOD requested] := by
    rw [Nat.count, ← map_idxOf nodup, List.countP_map, subgroup, ← List.countP_eq_length_filter]
    apply List.countP_congr
    intro p _
    simp [Nat.ModEq, Nat.mod_eq_of_lt below]
  rw [counted, Nat.count_modEq_card _ (Nat.zero_lt_of_lt below), Nat.mod_eq_of_lt below]

theorem length_subgroup_eq (nodup : world.Nodup) (below : pid < requested) :
    (subgroup world requested pid).length = world.length / requested ∨
      (subgroup world requested pid).length = (world.length + requested - 1) / requested := by
  have length := length_subgroup nodup below
  have positive : 0 < requested := Nat.zero_lt_of_lt below
  by_cases larger : pid < world.length % requested
  · right
    rw [if_pos larger] at length
    have above : (world.length + requested - 1) / requested = world.length / requested + 1 := by
      have split := Nat.div_add_mod world.length requested
      have bound := Nat.mod_lt world.length positive
      rw [Nat.div_eq_iff positive]
      constructor
      · rw [Nat.add_mul, Nat.mul_comm]
        omega
      · rw [Nat.add_mul, Nat.mul_comm]
        omega
    rw [length, above]
  · left
    rw [if_neg larger] at length
    exact length

theorem sum_subgroups (nodup : world.Nodup) (positive : 0 < requested) :
    ((List.range requested).map fun pid => (subgroup world requested pid).length).sum =
      world.length := by
  have lengths : ((List.range requested).map fun pid => (subgroup world requested pid).length) =
      (List.range requested).map fun pid =>
        world.length / requested + if pid < world.length % requested then 1 else 0 := by
    apply List.map_congr_left
    intro pid member
    exact length_subgroup nodup (List.mem_range.mp member)
  have rests : ∀ count, ((List.range count).map fun pid =>
      world.length / requested + if pid < world.length % requested then 1 else 0).sum =
        count * (world.length / requested) + min count (world.length % requested) := by
    intro count
    induction count with
    | zero => simp
    | succ count ih =>
        rw [List.range_succ, List.map_append, List.sum_append, ih, List.map_singleton,
          List.sum_singleton, Nat.add_mul]
        by_cases larger : count < world.length % requested
        · rw [if_pos larger]
          omega
        · rw [if_neg larger]
          omega
  rw [lengths, rests, Nat.min_eq_right (Nat.mod_lt _ positive).le]
  exact Nat.div_add_mod _ _

end Talpf.Nesting
