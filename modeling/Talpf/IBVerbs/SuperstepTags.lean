import Talpf.IBVerbs.State
import Mathlib.Algebra.Group.Nat.Defs
import Mathlib.Algebra.GroupWithZero.Nat

/-!
# The tags of supersteps

A notification carries the counter of its sender as an unsigned number, and the
sync of the receiver reduces its own counter as a signed one.  The two
remainders are the same until the counter has become negative, and from then on
only for the counters that 1024 divides.
-/

namespace Talpf

namespace IBVerbs

variable {n : ℕ}

/-- A process that has completed `t` syncs since the constructor; it is up to `withBarrier` which of
them had a barrier. -/
def afterSyncs (device : Device n) (withBarrier : ℕ → Bool) : ℕ → IBVerbs n
  | 0 => initial device
  | t + 1 =>
      if withBarrier t then (afterSyncs device withBarrier t).finishRequest
      else (afterSyncs device withBarrier t).releaseRequest

theorem syncCounter_afterSyncs (device : Device n) (withBarrier : ℕ → Bool) (t : ℕ) :
    (afterSyncs device withBarrier t).syncCounter = BitVec.ofNat 32 t := by
  induction t with
  | zero => rfl
  | succ t ih =>
      have once : BitVec.ofNat 32 (t + 1) = BitVec.ofNat 32 t + 1 := BitVec.ofNat_add t 1
      rw [once, ← ih, afterSyncs]
      split <;> rfl

/-- The entry that a notification of superstep `t` is counted in. -/
theorem recvIndex_afterSyncs (device : Device n) (withBarrier : ℕ → Bool) (t : ℕ) :
    (recvIndex (afterSyncs device withBarrier t).immData).val = t % 1024 := by
  have smaller : 1024 ∣ 2 ^ 32 := ⟨2 ^ 22, rfl⟩
  have counter : (recvIndex (afterSyncs device withBarrier t).immData).val =
      (BitVec.ofNat 32 t).toNat % 1024 := by
    rw [← syncCounter_afterSyncs device withBarrier t]
    rfl
  rw [counter, BitVec.toNat_ofNat]
  exact Nat.mod_mod_of_dvd t smaller

theorem map_val_syncIndex {verbs : IBVerbs n} {index : Int}
    (remainder : verbs.syncCounter.toInt.tmod 1024 = index) : verbs.syncIndex.map Fin.val =
      if 0 ≤ index ∧ index < 1024 then some index.toNat else none := by
  subst remainder
  rw [syncIndex]
  split <;> rfl

/-- A counter that is not negative leaves the remainder that the receiver looks at. -/
theorem syncIndex_of_nonneg {verbs : IBVerbs n} (small : verbs.syncCounter.toNat < 2 ^ 31) :
    verbs.syncIndex.map Fin.val = some (verbs.syncCounter.toNat % 1024) := by
  have signed : verbs.syncCounter.toInt = verbs.syncCounter.toNat :=
    BitVec.toInt_eq_toNat_of_lt (by omega)
  have remainder : verbs.syncCounter.toInt.tmod 1024 = (verbs.syncCounter.toNat % 1024 : ℕ) := by
    rw [signed]
    rfl
  have bound : verbs.syncCounter.toNat % 1024 < 1024 := Nat.mod_lt _ (by decide)
  rw [map_val_syncIndex remainder, if_pos ⟨by omega, by omega⟩, Int.toNat_natCast]

/-- A negative counter has an entry only if 1024 divides it. -/
theorem syncIndex_of_neg {verbs : IBVerbs n} (large : 2 ^ 31 ≤ verbs.syncCounter.toNat) :
    verbs.syncIndex.map Fin.val =
      if verbs.syncCounter.toNat % 1024 = 0 then some 0 else none := by
  have bound := verbs.syncCounter.isLt
  have signed : verbs.syncCounter.toInt = -((2 ^ 32 - verbs.syncCounter.toNat : ℕ) : Int) := by
    rw [BitVec.toInt_eq_toNat_cond, if_neg (by omega)]
    omega
  have remainder : verbs.syncCounter.toInt.tmod 1024 =
      -((2 ^ 32 - verbs.syncCounter.toNat) % 1024 : ℕ) := by
    rw [signed, Int.neg_tmod]
    rfl
  rw [map_val_syncIndex remainder]
  split_ifs
  · rw [Option.some.injEq]
    omega
  · omega
  · omega
  · rfl

/--
The sync of superstep `t` looks at the entry in which the notifications of that
superstep are counted if and only if the counter has not become negative or
1024 divides it.
-/
theorem syncIndex_eq_recvIndex_iff (sender receiver : Device n) (sent received : ℕ → Bool)
    (t : ℕ) :
    (afterSyncs receiver received t).syncIndex =
        some (recvIndex (afterSyncs sender sent t).immData) ↔
      t % 2 ^ 32 < 2 ^ 31 ∨ t % 1024 = 0 := by
  have tag := recvIndex_afterSyncs sender sent t
  have counter : (afterSyncs receiver received t).syncCounter.toNat = t % 2 ^ 32 := by
    rw [syncCounter_afterSyncs, BitVec.toNat_ofNat]
  have reduced : t % 2 ^ 32 % 1024 = t % 1024 := Nat.mod_mod_of_dvd t ⟨2 ^ 22, rfl⟩
  have values : (afterSyncs receiver received t).syncIndex =
      some (recvIndex (afterSyncs sender sent t).immData) ↔
        (afterSyncs receiver received t).syncIndex.map Fin.val = some (t % 1024) := by
    rw [← tag]
    exact (Option.map_injective Fin.val_injective).eq_iff.symm
  rw [values]
  by_cases small : t % 2 ^ 32 < 2 ^ 31
  · rw [syncIndex_of_nonneg (by omega), counter, reduced]
    exact ⟨fun _ => Or.inl small, fun _ => rfl⟩
  · rw [syncIndex_of_neg (by omega), counter, reduced, or_iff_right small]
    by_cases divides : t % 1024 = 0
    · simp only [divides, if_true]
    · simp only [divides, if_false, reduceCtorEq]

/-- The first superstep without an entry. -/
theorem syncIndex_overflown : ¬∀ (sender receiver : Device 1) (sent received : ℕ → Bool) (t : ℕ),
    (afterSyncs receiver received t).syncIndex =
      some (recvIndex (afterSyncs sender sent t).immData) := by
  intro agree
  have agrees := agree (.generous 1) (.generous 1) (fun _ => true) (fun _ => true) (2 ^ 31 + 1)
  have counter : (afterSyncs (.generous 1) (fun _ => true) (2 ^ 31 + 1)).syncCounter.toNat =
      2 ^ 31 + 1 := by
    rw [syncCounter_afterSyncs]
    rfl
  have missing := @syncIndex_of_neg _ (afterSyncs (.generous 1) (fun _ => true) (2 ^ 31 + 1))
    (by omega)
  rw [agrees, counter] at missing
  cases missing

end IBVerbs

end Talpf
