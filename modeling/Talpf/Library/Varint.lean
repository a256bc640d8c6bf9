import Mathlib.Data.Nat.Digits.Lemmas

/-!
# Numbers of variable length

A natural number is written as a sequence of bytes: each byte holds seven bits of the
number, least significant group first, and its highest bit tells whether another byte
follows.
-/

namespace Varint

/-- The bytes of a number. -/
def bytes (n : ℕ) : List UInt8 :=
  if n < 128 then [UInt8.ofNat n] else UInt8.ofNat (n % 128 + 128) :: bytes (n / 128)

/-- The groups of seven bits of a number; there is at least one. -/
def groups (n : ℕ) : List ℕ := if n = 0 then [0] else Nat.digits 128 n

/-- What a sequence of bytes stands for. -/
def value (encoded : List UInt8) : ℕ :=
  encoded.foldr (fun byte value => value * 128 + byte.toNat % 128) 0

theorem bytes_of_lt {n : ℕ} (small : n < 128) : bytes n = [UInt8.ofNat n] := by
  rw [bytes, if_pos small]

theorem bytes_of_le {n : ℕ} (large : 128 ≤ n) :
    bytes n = UInt8.ofNat (n % 128 + 128) :: bytes (n / 128) := by
  rw [bytes, if_neg (Nat.not_lt.mpr large)]

theorem toNat_last {n : ℕ} (small : n < 128) : (UInt8.ofNat n).toNat = n := by
  rw [UInt8.toNat_ofNat']
  omega

theorem toNat_more (n : ℕ) : (UInt8.ofNat (n % 128 + 128)).toNat = n % 128 + 128 := by
  rw [UInt8.toNat_ofNat']
  omega

/-- Every byte holds a group. -/
theorem map_bytes (n : ℕ) : (bytes n).map (fun byte => byte.toNat % 128) = groups n := by
  induction n using Nat.strongRecOn with
  | ind n ih =>
      by_cases small : n < 128
      · rw [bytes_of_lt small, List.map_singleton, toNat_last small, Nat.mod_eq_of_lt small, groups]
        by_cases zero : n = 0
        · rw [if_pos zero, zero]
        · rw [if_neg zero, Nat.digits_of_lt 128 n zero small]
      · have large : 128 ≤ n := Nat.le_of_not_lt small
        have more : n / 128 ≠ 0 := by omega
        have some : n ≠ 0 := by omega
        have group : (n % 128 + 128) % 128 = n % 128 := by omega
        rw [bytes_of_le large, List.map_cons, toNat_more, ih (n / 128) (by omega), groups, groups,
          if_neg more, if_neg some, Nat.digits_def' (by decide) (Nat.pos_of_ne_zero some), group]

/-- All bytes but the last one announce another byte. -/
theorem bytes_split (n : ℕ) :
    ∃ init last, bytes n = init ++ [last] ∧ (∀ byte ∈ init, 128 ≤ byte.toNat) ∧
      last.toNat < 128 := by
  induction n using Nat.strongRecOn with
  | ind n ih =>
      by_cases small : n < 128
      · refine ⟨[], UInt8.ofNat n, bytes_of_lt small, by simp, ?_⟩
        rw [toNat_last small]
        exact small
      · have large : 128 ≤ n := Nat.le_of_not_lt small
        rcases ih (n / 128) (by omega) with ⟨init, last, split, more, done⟩
        refine ⟨UInt8.ofNat (n % 128 + 128) :: init, last, ?_, ?_, done⟩
        · rw [bytes_of_le large, split, List.cons_append]
        · intro byte member
          rcases List.mem_cons.mp member with rfl | member
          · rw [toNat_more]
            exact Nat.le_add_left _ _
          · exact more byte member

theorem value_eq_ofDigits (encoded : List UInt8) :
    value encoded = Nat.ofDigits 128 (encoded.map fun byte => byte.toNat % 128) := by
  induction encoded with
  | nil => rfl
  | cons byte rest ih =>
      rw [List.map_cons, Nat.ofDigits_cons, ← ih]
      show value rest * 128 + byte.toNat % 128 = byte.toNat % 128 + 128 * value rest
      omega

@[simp]
theorem value_bytes (n : ℕ) : value (bytes n) = n := by
  rw [value_eq_ofDigits, map_bytes, groups]
  by_cases zero : n = 0
  · rw [if_pos zero, zero]
    rfl
  · rw [if_neg zero, Nat.ofDigits_digits]

theorem length_bytes (n : ℕ) : (bytes n).length = (groups n).length := by
  rw [← map_bytes, List.length_map]

/-- No shorter sequence has room for the number. -/
theorem length_bytes_le_iff {n k : ℕ} (positive : 0 < k) :
    (bytes n).length ≤ k ↔ n < 128 ^ k := by
  rw [length_bytes, groups]
  by_cases zero : n = 0
  · rw [if_pos zero, zero, List.length_singleton]
    exact iff_of_true positive (Nat.pow_pos (by decide))
  · rw [if_neg zero, Nat.digits_length_le_iff (by decide)]

end Varint
