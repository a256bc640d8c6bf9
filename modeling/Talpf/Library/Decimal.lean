import Mathlib.Data.List.Basic
import Mathlib.Tactic.Ring

/-!
# Decimal numbers

How integers are printed, possibly padded with zeros, and how a number with a
fixed number of fractional digits is read.
-/

namespace Decimal

/-- An integer as a stream prints it. -/
def print (number : ℤ) : List Char :=
  if number < 0 then '-' :: Nat.toDigits 10 number.natAbs else Nat.toDigits 10 number.natAbs

/-- An integer that is filled up with zeros to a given width. -/
def printPadded (width : ℕ) (number : ℤ) : List Char := (print number).leftpad width '0'

/-- The number of units that digits around a decimal point stand for. -/
def readUnsigned (places : ℕ) (text : List Char) : Option ℕ :=
  let whole := text.takeWhile Char.isDigit
  match text.dropWhile Char.isDigit with
  | '.' :: fraction =>
      if whole ≠ [] ∧ fraction.length = places ∧ fraction.all Char.isDigit then
        some (Nat.ofDigitChars 10 whole 0 * 10 ^ places + Nat.ofDigitChars 10 fraction 0)
      else none
  | _ => none

/-- The number of units of the last place that a text stands for. -/
def read (places : ℕ) (text : List Char) : Option ℤ :=
  match text with
  | '-' :: digits => (readUnsigned places digits).map fun units : ℕ => -(units : ℤ)
  | digits => (readUnsigned places digits).map fun units : ℕ => (units : ℤ)

theorem isDigit_of_mem {number : ℕ} {c : Char} (mem : c ∈ Nat.toDigits 10 number) :
    c.isDigit = true :=
  Nat.isDigit_of_mem_toDigits (by decide) (by decide) mem

theorem takeWhile_digits (number : ℕ) (rest : List Char) :
    (Nat.toDigits 10 number ++ '.' :: rest).takeWhile Char.isDigit = Nat.toDigits 10 number := by
  rw [List.takeWhile_append_of_pos fun _ => isDigit_of_mem,
    List.takeWhile_cons_of_neg (by decide), List.append_nil]

theorem dropWhile_digits (number : ℕ) (rest : List Char) :
    (Nat.toDigits 10 number ++ '.' :: rest).dropWhile Char.isDigit = '.' :: rest := by
  rw [List.dropWhile_append_of_pos fun _ => isDigit_of_mem,
    List.dropWhile_cons_of_neg (by decide)]

theorem print_natCast (number : ℕ) : print number = Nat.toDigits 10 number := by
  rw [print, if_neg (by omega), Int.natAbs_natCast]

theorem length_printPadded_iff {width number : ℕ} (positive : 0 < width) :
    (printPadded width number).length = width ↔ number < 10 ^ width := by
  rw [printPadded, print_natCast, List.length_leftpad,
    ← Nat.length_toDigits_le_iff (by decide) positive]
  omega

/-- What was printed in two parts is read again if the second part is a fraction. -/
theorem readUnsigned_print {places : ℕ} (positive : 0 < places) (whole fraction : ℕ) :
    readUnsigned places (Nat.toDigits 10 whole ++ '.' :: printPadded places fraction) =
      if fraction < 10 ^ places then some (whole * 10 ^ places + fraction) else none := by
  have digits : (printPadded places fraction).all Char.isDigit = true := by
    rw [printPadded, print_natCast, List.leftpad, List.all_eq_true]
    intro c mem
    rcases List.mem_append.mp mem with zero | digit
    · rw [List.eq_of_mem_replicate zero]
      rfl
    · exact isDigit_of_mem digit
  have isFraction : Nat.ofDigitChars 10 (printPadded places fraction) 0 = fraction := by
    rw [printPadded, print_natCast, List.leftpad, Nat.ofDigitChars_append,
      Nat.ofDigitChars_replicate_zero, Nat.mul_zero, Nat.ofDigitChars_ten_toDigits]
  simp only [readUnsigned, takeWhile_digits, dropWhile_digits, Nat.ofDigitChars_ten_toDigits,
    isFraction, length_printPadded_iff positive, digits, Nat.toDigits_ne_nil, ne_eq,
    not_false_eq_true, and_true, true_and]

theorem read_minus (places : ℕ) (digits : List Char) :
    read places ('-' :: digits) = (readUnsigned places digits).map fun units : ℕ => -(units : ℤ) :=
  rfl

theorem toDigits_eq_cons (number : ℕ) :
    ∃ digit digits, Nat.toDigits 10 number = digit :: digits ∧ digit ≠ '-' := by
  rcases List.exists_cons_of_ne_nil (@Nat.toDigits_ne_nil number 10) with ⟨digit, digits, parts⟩
  refine ⟨digit, digits, parts, ?_⟩
  rintro rfl
  have isDigit : '-'.isDigit = true := isDigit_of_mem (parts ▸ List.mem_cons_self)
  exact absurd isDigit (by decide)

theorem read_digits (places number : ℕ) (rest : List Char) :
    read places (Nat.toDigits 10 number ++ rest) =
      (readUnsigned places (Nat.toDigits 10 number ++ rest)).map fun units : ℕ => (units : ℤ) := by
  rcases toDigits_eq_cons number with ⟨digit, digits, parts, noSign⟩
  rw [parts, List.cons_append, read]
  intro rest' isSign
  exact noSign (List.cons.inj isSign).1

/-- The sign of the whole part counts for the fraction as well. -/
theorem read_print {places : ℕ} (positive : 0 < places) (whole : ℤ) (fraction : ℕ) :
    read places (print whole ++ '.' :: printPadded places fraction) =
      if fraction < 10 ^ places then
        some (if whole < 0 then whole * 10 ^ places - fraction else whole * 10 ^ places + fraction)
      else none := by
  rw [print]
  split
  next negative =>
    rw [List.cons_append, read_minus, readUnsigned_print positive]
    split
    next fits =>
      rw [Option.map_some]
      push_cast
      rw [abs_of_neg negative]
      congr 1
      ring
    next => rfl
  next nonneg =>
    rw [read_digits, readUnsigned_print positive]
    split
    next fits =>
      rw [Option.map_some]
      push_cast
      rw [abs_of_nonneg (not_lt.mp nonneg)]
    next => rfl

theorem head_print_eq_iff (number : ℤ) (rest : List Char) :
    (print number ++ rest).head? = some '-' ↔ number < 0 := by
  rw [print]
  split
  next negative => exact iff_of_true rfl negative
  next nonneg =>
    rcases toDigits_eq_cons number.natAbs with ⟨digit, digits, parts, noSign⟩
    rw [parts]
    exact iff_of_false (fun isSign => noSign (Option.some.inj isSign)) nonneg

end Decimal
