import BlockchainAuditor.EventRoundTrip

/-! Integers that the C library reads from text: `%d` of `fscanf`, and what it reads of a
number that `%d` of `printf` wrote. -/

namespace BlockchainAuditor

open CStrings Decimal

def plus : UInt8 := 43

def isSpaceByte (c : UInt8) : Bool := c = 32 || (9 ≤ c && c ≤ 13)

def scanDigits (text : Bytes) : Option Nat :=
  let digits := text.takeWhile isDigit
  if digits = [] then none else some (digitsValue (digits.map fun c => c.toNat - 48))

def scanSigned : Bytes → Option Int
  | [] => none
  | c :: rest =>
    if c = minus then (scanDigits rest).map fun (value : Nat) => -(value : Int)
    else if c = plus then (scanDigits rest).map fun (value : Nat) => (value : Int)
    else (scanDigits (c :: rest)).map fun (value : Nat) => (value : Int)

/-- The number at the front of a text, behind white space. -/
def scanInteger (text : Bytes) : Option Int := scanSigned (text.dropWhile isSpaceByte)

variable {c : UInt8} (rest : Bytes)

theorem scanDigits_digits {digits : List Nat} (small : ∀ digit ∈ digits, digit < 10)
    (nonempty : digits ≠ []) (notDigit : isDigit c = false) :
    scanDigits (digits.map digitByte ++ c :: rest) = some (digitsValue digits) := by
  have visible : ∀ byte ∈ digits.map digitByte, isDigit byte = true := by
    intro byte member
    obtain ⟨digit, inside, rfl⟩ := List.mem_map.mp member
    exact (digitByte_digit (small digit inside)).2.1
  have taken : (digits.map digitByte ++ c :: rest).takeWhile isDigit = digits.map digitByte := by
    rw [List.takeWhile_append_of_pos visible]
    simp [notDigit]
  simp only [scanDigits, taken, digitBytes_values small, List.map_eq_nil_iff, if_neg nonempty]

theorem scanDigits_decimal (number : Nat) (notDigit : isDigit c = false) :
    scanDigits ((decimalDigits number).map digitByte ++ c :: rest) = some number := by
  rw [scanDigits_digits rest (fun _ => decimalDigits_lt) (decimalDigits_ne_nil number) notDigit,
    digitsValue_decimalDigits]

theorem digitByte_visible {digit : Nat} (small : digit < 10) :
    isSpaceByte (digitByte digit) = false ∧ digitByte digit ≠ minus ∧ digitByte digit ≠ plus := by
  interval_cases digit <;> decide

theorem formatInt_visible (value : Int) :
    ∃ first tail, formatInt value = first :: tail ∧ isSpaceByte first = false := by
  have shown : ∀ byte ∈ formatInt value, isSpaceByte byte = false := by
    intro byte member
    rcases formatInt_isNumeral member with rfl | digit
    · decide
    · simp only [isDigit, Bool.and_eq_true, decide_eq_true_eq, UInt8.le_iff_toNat_le,
        UInt8.reduceToNat] at digit
      simp only [isSpaceByte, Bool.or_eq_false_iff, Bool.and_eq_false_iff, decide_eq_false_iff_not,
        UInt8.le_iff_toNat_le, UInt8.reduceToNat, ← UInt8.toNat_inj]
      omega
  cases text : formatInt value with
  | nil =>
      have digits := decimalDigits_ne_nil value.natAbs
      unfold formatInt at text
      split at text <;> simp_all
  | cons first tail => exact ⟨first, tail, rfl, shown first (by simp [text])⟩

theorem scanSigned_formatInt (value : Int) (notDigit : isDigit c = false) :
    scanSigned (formatInt value ++ c :: rest) = some value := by
  have digits := scanDigits_decimal rest value.natAbs notDigit
  unfold formatInt
  by_cases negative : value < 0
  · rw [if_pos negative, List.cons_append, scanSigned, if_pos rfl, digits, Option.map_some]
    congr 1
    omega
  · obtain ⟨first, tail, split⟩ :=
      List.exists_cons_of_ne_nil (decimalDigits_ne_nil value.natAbs)
    obtain ⟨_, notMinus, notPlus⟩ :=
      digitByte_visible (decimalDigits_lt (split ▸ List.mem_cons_self))
    rw [split, List.map_cons, List.cons_append] at digits
    rw [if_neg negative, split, List.map_cons, List.cons_append, scanSigned, if_neg notMinus,
      if_neg notPlus, digits, Option.map_some]
    congr 1
    omega

theorem scanInteger_formatInt (value : Int) (notDigit : isDigit c = false) :
    scanInteger (formatInt value ++ c :: rest) = some value := by
  obtain ⟨first, tail, split, visible⟩ := formatInt_visible value
  have signed := scanSigned_formatInt rest value notDigit
  rw [split, List.cons_append] at signed ⊢
  rw [scanInteger, List.dropWhile_cons, visible]
  exact signed

end BlockchainAuditor
