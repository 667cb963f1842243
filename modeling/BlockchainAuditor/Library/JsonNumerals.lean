import BlockchainAuditor.Library.JsDoubles
import BlockchainAuditor.Library.JsonRecord

/-! The text of a double is a numeral of the JSON grammar, and numerals are read to their end
with their value. -/

namespace JavaScript

open Decimal JsonUnit

inductive IsFraction : JsString → List Nat → Prop
  | none : IsFraction [] []
  | digits {digits : List Nat} : digits ≠ [] → (∀ digit ∈ digits, digit < 10) →
      IsFraction (46 :: digitUnits digits) digits

inductive IsExponent : JsString → ℤ → Prop
  | none : IsExponent [] 0
  | positive {digits : List Nat} : digits ≠ [] → (∀ digit ∈ digits, digit < 10) →
      IsExponent (101 :: 43 :: digitUnits digits) (digitsValue digits)
  | negative {digits : List Nat} : digits ≠ [] → (∀ digit ∈ digits, digit < 10) →
      IsExponent (101 :: 45 :: digitUnits digits) (-digitsValue digits)

inductive Numeral : JsString → ℚ → Prop
  | parts {first : Nat} {whole decimals : List Nat} {fraction exponent : JsString} {scale : ℤ} :
      (first = 0 → whole = []) → (∀ digit ∈ first :: whole, digit < 10) →
      IsFraction fraction decimals → IsExponent exponent scale →
      Numeral (digitUnits (first :: whole) ++ (fraction ++ exponent))
        (digitsValue (first :: whole ++ decimals) * 10 ^ (scale - decimals.length))

/-- Nothing, or a unit that no numeral goes on with. -/
structure EndsNumber (rest : JsString) : Prop where
  notDigit : ∀ unit ∈ rest.head?, isDigitUnit unit = false
  notPoint : ∀ unit ∈ rest.head?, unit ≠ 46
  notExponent : ∀ unit ∈ rest.head?, unit ≠ 101 ∧ unit ≠ 69

theorem parseFraction_read {fraction : JsString} {decimals : List Nat}
    (isFraction : IsFraction fraction decimals) {rest : JsString}
    (notDigit : ∀ unit ∈ rest.head?, isDigitUnit unit = false)
    (notPoint : ∀ unit ∈ rest.head?, unit ≠ 46) :
    parseFraction (fraction ++ rest) = some (decimals, rest) := by
  cases isFraction with
  | none =>
      rw [List.nil_append, parseFraction.eq_def]
      split
      · exact absurd rfl (notPoint _ rfl)
      · rfl
  | digits present small => exact parseDigits_digitUnits present small notDigit

theorem parseExponent_read {exponent : JsString} {scale : ℤ} (isExponent : IsExponent exponent scale)
    {rest : JsString} (ends : EndsNumber rest) :
    parseExponent (exponent ++ rest) = some (scale, rest) := by
  cases isExponent with
  | none =>
      rw [List.nil_append, parseExponent.eq_def]
      split
      · exact absurd rfl (ends.notExponent _ rfl).1
      · exact absurd rfl (ends.notExponent _ rfl).2
      · rfl
  | positive present small =>
      simp only [List.cons_append, parseExponent, parseExponentDigits,
        parseDigits_digitUnits present small ends.notDigit, Option.bind_eq_bind, Option.bind_some]
  | negative present small =>
      simp only [List.cons_append, parseExponent, parseExponentDigits,
        parseDigits_digitUnits present small ends.notDigit, Option.bind_eq_bind, Option.bind_some]

theorem parseMagnitude_read {text : JsString} {value : ℚ} (numeral : Numeral text value)
    (negative : Bool) {rest : JsString} (ends : EndsNumber rest) :
    parseMagnitude negative (text ++ rest) = some (toDouble negative value, rest) := by
  cases numeral with
  | @parts first whole decimals fraction exponent scale leading small isFraction isExponent =>
    have exponentRead := parseExponent_read isExponent ends
    -- what follows the fraction is the exponent or what stands behind the numeral
    have afterFraction : (∀ unit ∈ (exponent ++ rest).head?, isDigitUnit unit = false) ∧
        ∀ unit ∈ (exponent ++ rest).head?, unit ≠ 46 := by
      cases isExponent with
      | none => exact ⟨ends.notDigit, ends.notPoint⟩
      | positive => exact ⟨by simp; decide, by simp⟩
      | negative => exact ⟨by simp; decide, by simp⟩
    have fractionRead := parseFraction_read isFraction afterFraction.1 afterFraction.2
    have stops : ∀ unit ∈ (fraction ++ (exponent ++ rest)).head?, isDigitUnit unit = false := by
      cases isFraction with
      | none => exact afterFraction.1
      | digits => simp; decide
    have integer : parseInteger (digitUnits (first :: whole) ++ (fraction ++ (exponent ++ rest))) =
        some (first :: whole, fraction ++ (exponent ++ rest)) := by
      have read := parseDigits_digitUnits (List.cons_ne_nil first whole) small stops
      simp only [parseInteger, read, Option.bind_eq_bind, Option.bind_some]
      refine if_neg ?_
      rintro ⟨long, zero⟩
      have short := leading (by simpa using zero)
      simp [short] at long
    rw [List.append_assoc, List.append_assoc]
    simp only [parseMagnitude, integer, fractionRead, exponentRead, Option.bind_eq_bind,
      Option.bind_some]

section Layouts

variable {first : Nat} {rest : List Nat} (nonzero : first ≠ 0)
  (small : ∀ digit ∈ first :: rest, digit < 10)

include nonzero small

theorem whole_numeral (zeros : Nat) :
    Numeral (digitUnits (first :: rest ++ List.replicate zeros 0))
      (pointed (first :: rest) ((first :: rest).length + zeros)) := by
  have padded : ∀ digit ∈ first :: (rest ++ List.replicate zeros 0), digit < 10 := by
    rw [← List.cons_append]
    exact List.forall_mem_append.mpr ⟨small, zeros_lt zeros⟩
  have numeral := Numeral.parts (fun zero => absurd zero nonzero) padded .none .none
  have ends : ((first :: rest).length + zeros : ℤ) =
      (first :: rest ++ List.replicate zeros 0).length := by
    rw [List.length_append, List.length_replicate, Nat.cast_add]
  rw [← pointed_zeros _ zeros, pointed, ends, sub_self]
  simpa using numeral

theorem point_numeral {places : Nat} (inside : places < rest.length) :
    Numeral (digitUnits ((first :: rest).take (places + 1)) ++ units "." ++
      digitUnits ((first :: rest).drop (places + 1)))
      (pointed (first :: rest) ((places : ℤ) + 1)) := by
  have decimals : rest.drop places ≠ [] :=
    List.ne_nil_of_length_pos (by rw [List.length_drop]; omega)
  have front : ∀ digit ∈ first :: rest.take places, digit < 10 := fun digit member =>
    small digit (List.cons_subset_cons first (List.take_subset _ _) member)
  have back : ∀ digit ∈ rest.drop places, digit < 10 := fun digit member =>
    small digit (List.mem_cons_of_mem _ (List.mem_of_mem_drop member))
  have numeral := Numeral.parts (fun zero => absurd zero nonzero) front (.digits decimals back) .none
  have scale : (0 : ℤ) - (rest.drop places).length = places + 1 - (first :: rest).length := by
    rw [List.length_drop, List.length_cons]
    omega
  have whole : first :: rest.take places ++ rest.drop places = first :: rest := by simp
  rw [whole, scale] at numeral
  rw [List.take_succ_cons, List.drop_succ_cons, List.append_assoc, pointed]
  rwa [List.append_nil] at numeral

omit nonzero in
theorem fraction_numeral (zeros : Nat) :
    Numeral (units "0." ++ digitUnits (List.replicate zeros 0 ++ first :: rest))
      (pointed (first :: rest) (-zeros)) := by
  have padded : ∀ digit ∈ List.replicate zeros 0 ++ first :: rest, digit < 10 :=
    List.forall_mem_append.mpr ⟨zeros_lt zeros, small⟩
  have numeral := Numeral.parts (fun _ : 0 = 0 => rfl) (by simp : ∀ digit ∈ [0], digit < 10)
    (.digits (by simp) padded) .none
  have value : digitsValue ([0] ++ (List.replicate zeros 0 ++ first :: rest)) =
      digitsValue (first :: rest) := by
    have padding : digitsValue ([0] ++ List.replicate zeros 0) = 0 := digitsValue_zeros (zeros + 1)
    rw [← List.append_assoc, digitsValue_append, padding, zero_mul, zero_add]
  have scale : (0 : ℤ) - (List.replicate zeros 0 ++ first :: rest).length =
      -zeros - (first :: rest).length := by
    rw [List.length_append, List.length_replicate]
    push_cast
    ring
  rw [value, scale, List.append_nil] at numeral
  exact numeral

omit nonzero in
theorem exponent_numeral (exponent : ℤ) :
    Numeral (digitUnits ((first :: rest).take 1) ++
      (if ((first :: rest).length : ℤ) = 1 then []
        else units "." ++ digitUnits ((first :: rest).drop 1)) ++
      (if exponent < 0 then units "e-" else units "e+") ++
      digitUnits (decimalDigits exponent.natAbs))
      (pointed (first :: rest) (exponent + 1)) := by
  have isExponent : IsExponent ((if exponent < 0 then units "e-" else units "e+") ++
      digitUnits (decimalDigits exponent.natAbs)) exponent := by
    have value := digitsValue_decimalDigits exponent.natAbs
    split
    · have written := IsExponent.negative (decimalDigits_ne_nil exponent.natAbs)
        fun _ => decimalDigits_lt
      rwa [value, show -(exponent.natAbs : ℤ) = exponent by omega] at written
    · have written := IsExponent.positive (decimalDigits_ne_nil exponent.natAbs)
        fun _ => decimalDigits_lt
      rwa [value, show (exponent.natAbs : ℤ) = exponent by omega] at written
  have isFraction : IsFraction (if ((first :: rest).length : ℤ) = 1 then []
      else units "." ++ digitUnits ((first :: rest).drop 1)) rest := by
    split
    · rename_i single
      have nothing : rest = [] := List.length_eq_zero_iff.mp (by simpa using single)
      rw [nothing]
      exact .none
    · rename_i long
      have present : rest ≠ [] := by
        rintro rfl
        exact long rfl
      exact .digits present fun digit member => small digit (List.mem_cons_of_mem _ member)
  have single : ∀ digit ∈ [first], digit < 10 := by simpa using small first (by simp)
  have numeral := Numeral.parts (fun _ => rfl) single isFraction isExponent
  have scale : exponent - rest.length = exponent + 1 - (first :: rest).length := by
    rw [List.length_cons]
    push_cast
    ring
  rw [scale] at numeral
  simpa [List.append_assoc, pointed] using numeral

end Layouts

theorem magnitudeText_numeral {magnitude : ℚ} (positive : 0 < magnitude)
    (double : IsDouble magnitude) : Numeral (magnitudeText magnitude)
      (pointed (shortestDigits magnitude).1 (shortestDigits magnitude).2) := by
  have small : ∀ digit ∈ (shortestDigits magnitude).1, digit < 10 :=
    fun _ => shortestDigits_lt positive.le
  obtain ⟨first, rest, digits, nonzero⟩ := shortestDigits_proper positive double
  unfold magnitudeText
  generalize shortestDigits magnitude = found at small digits
  obtain ⟨all, point⟩ := found
  dsimp only at small digits ⊢
  subst digits
  split
  · rename_i whole
    have numeral := whole_numeral nonzero small (point - (first :: rest).length).toNat
    rwa [show ((first :: rest).length + (point - (first :: rest).length).toNat : ℤ) = point by
      omega] at numeral
  · split
    · rename_i fractional inside
      rw [List.length_cons] at fractional
      obtain ⟨places, counted⟩ : ∃ places : ℕ, point = places + 1 :=
        ⟨(point - 1).toNat, by omega⟩
      have taken : point.toNat = places + 1 := by omega
      rw [taken, counted]
      exact point_numeral nonzero small (by omega)
    · split
      · rename_i low
        have numeral := fraction_numeral small (-point).toNat
        rwa [show (-(-point).toNat : ℤ) = point by omega] at numeral
      · have numeral := exponent_numeral small (point - 1)
        rwa [sub_add_cancel] at numeral

inductive SignedNumeral : JsString → JsNumber → Prop
  | unsigned {text : JsString} {value : ℚ} : Numeral text value →
      SignedNumeral text (toDouble false value)
  | minus {text : JsString} {value : ℚ} : Numeral text value →
      SignedNumeral (45 :: text) (toDouble true value)

/-- What is read where a number was written. -/
def JsNumber.reread : JsNumber → JsNumber
  | .finite value => toDouble (value < 0) |value|
  | .negativeZero => .finite 0
  | .infinity negative => .infinity negative

theorem toDouble_nearest (negative : Bool) {left right : ℚ}
    (same : nearestDouble left = nearestDouble right) :
    toDouble negative left = toDouble negative right := by
  rw [toDouble, toDouble, same]

theorem zero_numeral : SignedNumeral (units "0") (.finite 0) := by
  have numeral := Numeral.parts (fun _ : 0 = 0 => rfl) (by simp : ∀ digit ∈ [0], digit < 10)
    .none .none
  have value : (digitsValue ([0] ++ []) : ℚ) * 10 ^ ((0 : ℤ) - ([] : List ℕ).length) = 0 := by
    simp [digitsValue, pushDigit]
  rw [value] at numeral
  have read : toDouble false 0 = .finite 0 := by simp [toDouble, nearestDouble]
  have zero := SignedNumeral.unsigned numeral
  rwa [read] at zero

theorem numberJson_numeral {value : JsNumber} (representable : value.Representable) :
    (∃ negative, value = .infinity negative) ∨ SignedNumeral (numberJson value) value.reread := by
  cases value with
  | infinity negative => exact Or.inl ⟨negative, rfl⟩
  | negativeZero => exact Or.inr zero_numeral
  | finite value =>
      right
      by_cases isZero : value = 0
      · subst isZero
        have written : numberJson (.finite 0) = units "0" := rfl
        have read : (JsNumber.finite 0).reread = .finite 0 := by
          simp [JsNumber.reread, toDouble, nearestDouble]
        rw [written, read]
        exact zero_numeral
      · have double := representable.resolve_left isZero
        have positive : 0 < |value| := abs_pos.mpr isZero
        have numeral := magnitudeText_numeral positive double
        have reads := (shortestDigits_reads positive double).trans double.nearest.symm
        rw [numberJson, JsNumber.text, if_neg isZero, JsNumber.reread]
        · by_cases negative : value < 0
          · rw [if_pos negative, decide_eq_true negative, ← toDouble_nearest true reads,
              ← abs_of_neg negative]
            exact .minus numeral
          · rw [if_neg negative, decide_eq_false negative, ← toDouble_nearest false reads]
            rw [abs_of_nonneg (not_lt.mp negative)] at numeral ⊢
            exact .unsigned numeral
        · simp

theorem numeral_head {text : JsString} {value : ℚ} (numeral : Numeral text value) :
    ∃ unit rest, text = unit :: rest ∧ isDigitUnit unit = true := by
  cases numeral with
  | @parts first whole _ fraction exponent _ _ small _ _ =>
    exact ⟨digitUnit first, _, rfl, (digitUnit_facts (small first (by simp))).1⟩

theorem signedNumeral_head {text : JsString} {value : JsNumber} (numeral : SignedNumeral text value) :
    ∃ unit rest, text = unit :: rest ∧ (unit = 45 ∨ isDigitUnit unit = true) := by
  cases numeral with
  | unsigned plain =>
      obtain ⟨first, others, split, digit⟩ := numeral_head plain
      exact ⟨first, others, split, Or.inr digit⟩
  | minus _ => exact ⟨45, _, rfl, Or.inl rfl⟩

theorem parseNumber_read {text : JsString} {value : JsNumber} (numeral : SignedNumeral text value)
    {rest : JsString} (ends : EndsNumber rest) :
    parseNumber (text ++ rest) = some (value, rest) := by
  cases numeral with
  | unsigned plain =>
      have read := parseMagnitude_read plain false ends
      obtain ⟨first, others, rfl, digit⟩ := numeral_head plain
      rw [← read, List.cons_append, parseNumber.eq_def]
      split
      · rename_i sign
        rw [(List.cons.inj sign).1] at digit
        exact absurd digit (by decide)
      · rfl
  | minus plain => exact parseMagnitude_read plain true ends

end JavaScript
