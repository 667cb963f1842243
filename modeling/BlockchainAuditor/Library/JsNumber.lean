import BlockchainAuditor.Library.Decimal
import BlockchainAuditor.Library.JsString
import Mathlib.Data.Int.Log
import Mathlib.Data.Rat.Floor

/-! JavaScript numbers other than NaN: the double nearest to a decimal literal and the
text of a double. -/

namespace JavaScript

open Decimal

inductive JsNumber
  | finite (value : ℚ)
  | negativeZero
  | infinity (negative : Bool)
  deriving DecidableEq

def roundHalfEven (value : ℚ) : ℤ :=
  let below := ⌊value⌋
  if value - below < 1 / 2 then below
  else if 1 / 2 < value - below then below + 1
  else if below % 2 = 0 then below else below + 1

/-- The distance between the doubles around a positive number. -/
def quantum (magnitude : ℚ) : ℚ := 2 ^ max (Int.log 2 magnitude - 52) (-1074)

def nearestDouble (magnitude : ℚ) : ℚ :=
  if magnitude = 0 then 0 else roundHalfEven (magnitude / quantum magnitude) * quantum magnitude

def toDouble (negative : Bool) (magnitude : ℚ) : JsNumber :=
  let nearest := nearestDouble magnitude
  if nearest = 0 then if negative then .negativeZero else .finite 0
  else if 2 ^ 1024 ≤ nearest then .infinity negative
  else .finite (if negative then -nearest else nearest)

def digitUnit (digit : Nat) : UInt16 := (48 + digit).toUInt16

def digitUnits (digits : List Nat) : JsString := digits.map digitUnit

def neighbours (magnitude place : ℚ) : List ℕ :=
  let below := (magnitude / place).floor.toNat
  if roundHalfEven (magnitude / place) = below then [below, below + 1] else [below + 1, below]

/-- The shortest digits that read back as the number, and where its point stands. An
integer below `2 ^ 53` is a neighbour of doubles on both sides, so these are its own. -/
def shortestDigits (magnitude : ℚ) : List Nat × ℤ :=
  if magnitude.den = 1 ∧ magnitude < 2 ^ 53 then
    let digits := decimalDigits magnitude.num.toNat
    (digits, digits.length)
  else
    let point := Int.log 10 magnitude + 1
    let candidates : List (ℕ × ℕ) := (List.range 17).flatMap fun places : ℕ =>
      let place : ℚ := 10 ^ (point - ((places : ℤ) + 1))
      ((neighbours magnitude place).filter fun number : ℕ =>
        nearestDouble (number * place) = magnitude).map fun number => (number, places)
    match candidates with
    | [] => ([], point)
    | (number, places) :: _ =>
      let digits := decimalDigits number
      ((digits.reverse.dropWhile (· = 0)).reverse, point - (places + 1) + digits.length)

def magnitudeText (magnitude : ℚ) : JsString :=
  let (digits, point) := shortestDigits magnitude
  let count : ℤ := digits.length
  if count ≤ point ∧ point ≤ 21 then
    digitUnits (digits ++ List.replicate (point - count).toNat 0)
  else if 0 < point ∧ point ≤ 21 then
    digitUnits (digits.take point.toNat) ++ units "." ++ digitUnits (digits.drop point.toNat)
  else if -6 < point ∧ point ≤ 0 then
    units "0." ++ digitUnits (List.replicate (-point).toNat 0 ++ digits)
  else
    let sign := if point - 1 < 0 then units "e-" else units "e+"
    let fraction := if count = 1 then [] else units "." ++ digitUnits (digits.drop 1)
    digitUnits (digits.take 1) ++ fraction ++ sign ++
      digitUnits (decimalDigits (point - 1).natAbs)

def JsNumber.text : JsNumber → JsString
  | .finite value =>
    if value = 0 then units "0"
    else if value < 0 then units "-" ++ magnitudeText (-value) else magnitudeText value
  | .negativeZero => units "0"
  | .infinity negative => if negative then units "-Infinity" else units "Infinity"

def intUnits (value : Int) : JsString :=
  if value < 0 then 45 :: digitUnits (decimalDigits value.natAbs)
  else digitUnits (decimalDigits value.natAbs)

theorem roundHalfEven_int (value : ℤ) : roundHalfEven value = value := by
  simp [roundHalfEven]

theorem nearestDouble_nat {number : Nat} (small : number < 2 ^ 53) :
    nearestDouble number = number := by
  unfold nearestDouble
  split
  · rename_i zero
    exact zero.symm
  · rename_i nonzero
    have positive : number ≠ 0 := by exact_mod_cast nonzero
    have log : Nat.log 2 number < 53 := Nat.log_lt_of_lt_pow positive small
    obtain ⟨shift, split⟩ : ∃ shift, Nat.log 2 number + shift = 52 :=
      ⟨52 - Nat.log 2 number, by omega⟩
    have step : quantum number = ((2 : ℚ) ^ shift)⁻¹ := by
      have exponent : max ((Nat.log 2 number : ℤ) - 52) (-1074) = -(shift : ℤ) := by omega
      rw [quantum, Int.log_natCast, exponent, zpow_neg, zpow_natCast]
    have scaled : (number : ℚ) / quantum number = ((number * 2 ^ shift : ℕ) : ℤ) := by
      rw [step]
      push_cast
      rw [div_inv_eq_mul]
    rw [scaled, roundHalfEven_int, step]
    push_cast
    rw [mul_assoc, mul_inv_cancel₀ (by positivity), mul_one]

theorem toDouble_int {value : ℤ} (small : value.natAbs < 2 ^ 53) (negative : Bool)
    (sign : negative = decide (value < 0)) :
    toDouble negative (value.natAbs : ℚ) = .finite value := by
  have bound : (value.natAbs : ℚ) < 2 ^ 1024 := by
    have below : (value.natAbs : ℚ) < 2 ^ 53 := by exact_mod_cast small
    exact below.trans (pow_lt_pow_right₀ (by norm_num) (by norm_num))
  simp only [toDouble, nearestDouble_nat small]
  by_cases zero : value = 0
  · simp [zero, sign]
  · rw [if_neg (by exact_mod_cast Int.natAbs_ne_zero.mpr zero), if_neg (not_le.mpr bound)]
    rcases lt_or_gt_of_ne zero with below | above
    · have magnitude : (value.natAbs : ℤ) = -value := by omega
      have cast : ((value.natAbs : ℤ) : ℚ) = -value := by
        rw [magnitude]
        push_cast
        rfl
      rw [Int.cast_natCast] at cast
      simp [sign, below, cast]
    · have magnitude : (value.natAbs : ℤ) = value := by omega
      have cast : ((value.natAbs : ℤ) : ℚ) = value := by rw [magnitude]
      rw [Int.cast_natCast] at cast
      simp [sign, not_lt.mpr above.le, cast]

theorem magnitudeText_nat {number : Nat} (small : number < 2 ^ 53) :
    magnitudeText number = digitUnits (decimalDigits number) := by
  have short : (decimalDigits number).length ≤ 21 :=
    decimalDigits_length (by decide) (small.trans (by norm_num))
  have digits : shortestDigits number =
      (decimalDigits number, ((decimalDigits number).length : ℤ)) := by
    have bound : (number : ℚ) < 2 ^ 53 := by exact_mod_cast small
    simp [shortestDigits, bound]
  have inside : ((decimalDigits number).length : ℤ) ≤ 21 := by exact_mod_cast short
  simp [magnitudeText, digits, inside]

theorem finite_text {value : Int} (small : value.natAbs < 2 ^ 53) :
    (JsNumber.finite value).text = intUnits value := by
  have digits := magnitudeText_nat small
  rw [JsNumber.text, intUnits]
  rcases lt_trichotomy value 0 with below | zero | above
  · have absolute : ((value.natAbs : ℕ) : ℤ) = -value := by omega
    have magnitude : ((value.natAbs : ℕ) : ℚ) = -value := by
      rw [← Int.cast_natCast, absolute, Int.cast_neg]
    rw [if_neg (by exact_mod_cast below.ne), if_pos (by exact_mod_cast below), if_pos below,
      ← magnitude, digits]
    rfl
  · subst zero
    decide +kernel
  · have absolute : ((value.natAbs : ℕ) : ℤ) = value := by omega
    have magnitude : ((value.natAbs : ℕ) : ℚ) = value := by
      rw [← Int.cast_natCast, absolute]
    rw [if_neg (by exact_mod_cast above.ne'), if_neg (by exact_mod_cast above.not_gt),
      if_neg above.not_gt, ← magnitude, digits]

end JavaScript
