import Mathlib.Data.Nat.Digits.Defs
import Mathlib.Data.Nat.Digits.Lemmas

/-! Canonical decimal numerals: the digits of a number, most significant first, and
the number that a digit sequence denotes. -/

namespace Decimal

def decimalDigits (number : Nat) : List Nat :=
  if number = 0 then [0] else (Nat.digits 10 number).reverse

def pushDigit (value digit : Nat) : Nat := value * 10 + digit

def digitsValue (digits : List Nat) : Nat := digits.foldl pushDigit 0

theorem decimalDigits_lt {number digit : Nat} (member : digit ∈ decimalDigits number) :
    digit < 10 := by
  unfold decimalDigits at member
  split at member
  · simp only [List.mem_singleton] at member
    omega
  · exact Nat.digits_lt_base (by decide) (List.mem_reverse.mp member)

theorem decimalDigits_ne_nil (number : Nat) : decimalDigits number ≠ [] := by
  unfold decimalDigits
  split
  · simp
  · rename_i nonzero
    simpa using Nat.digits_ne_nil_iff_ne_zero.mpr nonzero

theorem decimalDigits_head {number first : Nat} {rest : List Nat} (nonzero : number ≠ 0)
    (split : decimalDigits number = first :: rest) : first ≠ 0 := by
  rw [decimalDigits, if_neg nonzero] at split
  have reversed : Nat.digits 10 number = rest.reverse ++ [first] := by
    rw [← List.reverse_reverse (Nat.digits 10 number), split, List.reverse_cons]
  have last := Nat.getLast_digit_ne_zero 10 nonzero
  simpa [reversed] using last

theorem foldl_pushDigit (value : Nat) (digits : List Nat) :
    digits.foldl pushDigit value = value * 10 ^ digits.length + digitsValue digits := by
  induction digits generalizing value with
  | nil => simp [digitsValue]
  | cons digit rest ih =>
      simp only [digitsValue, List.foldl_cons, List.length_cons]
      rw [ih (pushDigit value digit), ih (pushDigit 0 digit)]
      simp only [pushDigit]
      ring

theorem digitsValue_append (left right : List Nat) :
    digitsValue (left ++ right) = digitsValue left * 10 ^ right.length + digitsValue right := by
  rw [digitsValue, List.foldl_append, foldl_pushDigit]
  rfl

theorem digitsValue_zeros (count : Nat) : digitsValue (List.replicate count 0) = 0 := by
  induction count with
  | zero => rfl
  | succ count ih =>
      rw [List.replicate_succ', digitsValue_append, ih]
      rfl

theorem digitsValue_decimalDigits (number : Nat) :
    digitsValue (decimalDigits number) = number := by
  unfold decimalDigits
  split
  · rename_i zero
    simp [digitsValue, pushDigit, zero]
  · rw [digitsValue, List.foldl_reverse]
    have folded : ∀ digits : List Nat,
        digits.foldr (fun digit value => pushDigit value digit) 0 = Nat.ofDigits 10 digits := by
      intro digits
      induction digits with
      | nil => rfl
      | cons digit rest ih =>
          rw [List.foldr_cons, ih, Nat.ofDigits_cons, pushDigit]
          omega
    rw [folded, Nat.ofDigits_digits]

theorem decimalDigits_injective {left right : Nat}
    (same : decimalDigits left = decimalDigits right) : left = right := by
  rw [← digitsValue_decimalDigits left, same, digitsValue_decimalDigits]

theorem decimalDigits_length {number places : Nat} (positive : 0 < places)
    (bound : number < 10 ^ places) : (decimalDigits number).length ≤ places := by
  unfold decimalDigits
  split
  · simp only [List.length_singleton]
    omega
  · rw [List.length_reverse]
    exact (Nat.digits_length_le_iff (by decide) number).mpr bound

end Decimal
