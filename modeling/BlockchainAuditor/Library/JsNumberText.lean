import BlockchainAuditor.Library.JsNumber
import Mathlib.Tactic.IntervalCases

/-! The shape of the text of a JavaScript number. -/

namespace JavaScript

open Decimal

theorem neighbours_ge {magnitude place : ℚ} {bound number : ℕ}
    (scaled : (bound : ℚ) ≤ magnitude / place) (near : number ∈ neighbours magnitude place) :
    bound ≤ number := by
  have floor : (bound : ℤ) ≤ (magnitude / place).floor := Int.le_floor.mpr (by exact_mod_cast scaled)
  simp only [neighbours] at near
  split at near
  · simp only [List.mem_cons, List.not_mem_nil, or_false] at near
    omega
  · simp only [List.mem_cons, List.not_mem_nil, or_false] at near
    omega

theorem scaled_ge {magnitude : ℚ} (positive : 0 < magnitude) (places : ℕ) :
    ((10 ^ places : ℕ) : ℚ) ≤
      magnitude / 10 ^ (Int.log 10 magnitude + 1 - ((places : ℤ) + 1)) := by
  have log := Int.zpow_log_le_self (b := 10) (by decide) positive
  have placePositive : (0 : ℚ) < 10 ^ (Int.log 10 magnitude + 1 - ((places : ℤ) + 1)) :=
    zpow_pos (by norm_num) _
  rw [le_div_iff₀ placePositive]
  push_cast at log ⊢
  have product : (10 : ℚ) ^ places * 10 ^ (Int.log 10 magnitude + 1 - ((places : ℤ) + 1)) =
      10 ^ Int.log 10 magnitude := by
    rw [← zpow_natCast, ← zpow_add₀ (by norm_num)]
    congr 1
    omega
  rw [product]
  exact log

theorem decimalDigits_length_gt {places number : ℕ} (large : 10 ^ places ≤ number) :
    places < (decimalDigits number).length := by
  have nonzero : number ≠ 0 := by
    have positive : 0 < 10 ^ places := by positivity
    omega
  have below := Nat.lt_base_pow_length_digits (b := 10) (m := number) (by decide)
  rw [decimalDigits, if_neg nonzero, List.length_reverse]
  exact (Nat.pow_lt_pow_iff_right (by decide)).mp (lt_of_le_of_lt large below)

theorem shortestDigits_cases {magnitude : ℚ} (nonnegative : 0 ≤ magnitude) :
    (∃ number : ℕ, magnitude = number ∧ number < 2 ^ 53) ∨
    (shortestDigits magnitude = ([], Int.log 10 magnitude + 1) ∧ ∀ places : ℕ, places < 17 →
      ∀ number ∈ neighbours magnitude (10 ^ (Int.log 10 magnitude + 1 - ((places : ℤ) + 1))),
        nearestDouble (number * 10 ^ (Int.log 10 magnitude + 1 - ((places : ℤ) + 1))) ≠ magnitude) ∨
    ∃ number places : ℕ,
      number ∈ neighbours magnitude (10 ^ (Int.log 10 magnitude + 1 - ((places : ℤ) + 1))) ∧
      nearestDouble (number * 10 ^ (Int.log 10 magnitude + 1 - ((places : ℤ) + 1))) = magnitude ∧
      shortestDigits magnitude = (((decimalDigits number).reverse.dropWhile (· = 0)).reverse,
        Int.log 10 magnitude + 1 - (places + 1) + (decimalDigits number).length) := by
  by_cases small : magnitude.den = 1 ∧ magnitude < 2 ^ 53
  · left
    have numerator : 0 ≤ magnitude.num := Rat.num_nonneg.mpr nonnegative
    have value : magnitude = (magnitude.num.toNat : ℚ) := by
      rw [← Int.cast_natCast, Int.toNat_of_nonneg numerator]
      exact (Rat.coe_int_num_of_den_eq_one small.1).symm
    refine ⟨magnitude.num.toNat, value, ?_⟩
    have bound := small.2
    rw [value] at bound
    exact_mod_cast bound
  · right
    simp only [shortestDigits, if_neg small]
    split
    · rename_i candidates
      refine Or.inl ⟨rfl, fun places few number near reads => ?_⟩
      have listed := List.flatMap_eq_nil_iff.mp candidates places (List.mem_range.mpr few)
      rw [List.map_eq_nil_iff, List.filter_eq_nil_iff] at listed
      exact listed number near (by simpa using reads)
    · rename_i number places rest candidates
      have member : (number, places) ∈ (number, places) :: rest := List.mem_cons_self
      rw [← candidates] at member
      obtain ⟨count, _, listed⟩ := List.mem_flatMap.mp member
      obtain ⟨candidate, kept, same⟩ := List.mem_map.mp listed
      obtain ⟨rfl, rfl⟩ := Prod.mk.inj same
      obtain ⟨near, reads⟩ := List.mem_filter.mp kept
      exact Or.inr ⟨candidate, count, near, of_decide_eq_true reads, rfl⟩

theorem shortestDigits_lt {magnitude : ℚ} (nonnegative : 0 ≤ magnitude) {digit : Nat}
    (member : digit ∈ (shortestDigits magnitude).1) : digit < 10 := by
  rcases shortestDigits_cases nonnegative with ⟨number, rfl, small⟩ | ⟨none, _⟩ |
    ⟨number, places, _, _, found⟩
  · have bound : (number : ℚ) < 2 ^ 53 := by exact_mod_cast small
    simp only [shortestDigits, Rat.den_natCast, bound, and_self, if_true] at member
    exact decimalDigits_lt member
  · simp [none] at member
  · rw [found, List.mem_reverse] at member
    exact decimalDigits_lt (List.mem_reverse.mp ((List.dropWhile_suffix _).subset member))

theorem shortestDigits_point {magnitude : ℚ} (large : 2 ^ 53 ≤ magnitude) :
    2 ≤ (shortestDigits magnitude).2 := by
  have positive : 0 < magnitude := lt_of_lt_of_le (by positivity) large
  have log : 1 ≤ Int.log 10 magnitude := by
    refine (Int.zpow_le_iff_le_log (b := 10) (by decide) positive).mp (le_trans ?_ large)
    norm_num
  rcases shortestDigits_cases positive.le with ⟨number, rfl, small⟩ | ⟨none, _⟩ |
    ⟨number, places, near, _, found⟩
  · have bound : (number : ℚ) < 2 ^ 53 := by exact_mod_cast small
    exact absurd bound (not_lt.mpr large)
  · rw [none]
    change 2 ≤ Int.log 10 magnitude + 1
    omega
  · have digits := decimalDigits_length_gt (neighbours_ge (scaled_ge positive places) near)
    rw [found]
    change 2 ≤ Int.log 10 magnitude + 1 - (places + 1) + (decimalDigits number).length
    omega

def EndsInDigit (text : JsString) : Prop :=
  ∃ front digit, text = front ++ [digitUnit digit] ∧ digit < 10 ∧ ∀ unit ∈ front, unit < 128

theorem digitUnit_lt {digit : Nat} (small : digit < 10) : digitUnit digit < 128 := by
  simp only [digitUnit, UInt16.lt_iff_toNat_lt, Nat.toUInt16_eq, UInt16.toNat_ofNat',
    UInt16.reduceToNat]
  omega

theorem ascii_units {text : JsString} (ascii : text.all (· < 128) = true) :
    ∀ unit ∈ text, unit < 128 := by
  simpa using ascii

theorem digitUnits_lt {digits : List Nat} (small : ∀ digit ∈ digits, digit < 10) :
    ∀ unit ∈ digitUnits digits, unit < 128 := by
  intro unit member
  obtain ⟨digit, inside, rfl⟩ := List.mem_map.mp member
  exact digitUnit_lt (small digit inside)

theorem zeros_lt (count : Nat) : ∀ digit ∈ List.replicate count 0, digit < 10 := by
  intro digit member
  rw [List.eq_of_mem_replicate member]
  decide

theorem EndsInDigit.prepend {before text : JsString} (ends : EndsInDigit text)
    (ascii : ∀ unit ∈ before, unit < 128) : EndsInDigit (before ++ text) := by
  obtain ⟨front, digit, rfl, small, frontAscii⟩ := ends
  refine ⟨before ++ front, digit, by simp, small, fun unit member => ?_⟩
  exact (List.mem_append.mp member).elim (ascii unit) (frontAscii unit)

theorem digitUnits_ends {digits : List Nat} (present : digits ≠ [])
    (small : ∀ digit ∈ digits, digit < 10) : EndsInDigit (digitUnits digits) := by
  have split := List.dropLast_append_getLast present
  refine ⟨digitUnits digits.dropLast, digits.getLast present, ?_,
    small _ (List.getLast_mem present), digitUnits_lt fun digit member => ?_⟩
  · conv => lhs; rw [← split]
    simp [digitUnits]
  · exact small digit (List.dropLast_subset _ member)

theorem magnitudeText_large {magnitude : ℚ} (large : 2 ^ 53 ≤ magnitude) :
    EndsInDigit (magnitudeText magnitude) ∧ 1 < (magnitudeText magnitude).length := by
  have nonnegative : 0 ≤ magnitude := le_trans (by positivity) large
  have bound := shortestDigits_point large
  have small : ∀ digit ∈ (shortestDigits magnitude).1, digit < 10 :=
    fun _ => shortestDigits_lt nonnegative
  unfold magnitudeText
  generalize shortestDigits magnitude = found at bound small
  obtain ⟨digits, point⟩ := found
  simp only at bound small ⊢
  split
  · rename_i whole
    have zeros : ∀ digit ∈ digits ++ List.replicate (point - digits.length).toNat 0, digit < 10 :=
      List.forall_mem_append.mpr ⟨small, zeros_lt _⟩
    have length : 1 < (digits ++ List.replicate (point - digits.length).toNat 0).length := by
      rw [List.length_append, List.length_replicate]
      omega
    refine ⟨digitUnits_ends ?_ zeros, by simpa [digitUnits] using length⟩
    exact List.ne_nil_of_length_pos (by omega)
  · split
    · rename_i fractional inside
      have front : ∀ digit ∈ digits.take point.toNat, digit < 10 := fun digit member =>
        small digit (List.mem_of_mem_take member)
      have back : ∀ digit ∈ digits.drop point.toNat, digit < 10 := fun digit member =>
        small digit (List.mem_of_mem_drop member)
      have length : 0 < (digits.drop point.toNat).length := by
        rw [List.length_drop]
        omega
      have ends := digitUnits_ends (List.ne_nil_of_length_pos length) back
      have point : ∀ unit ∈ units ".", unit < 128 := ascii_units (by decide)
      refine ⟨ends.prepend (List.forall_mem_append.mpr ⟨digitUnits_lt front, point⟩), ?_⟩
      have mark : (units ".").length = 1 := by decide
      simp only [List.length_append, mark, digitUnits, List.length_map]
      omega
    · split
      · omega
      · have front : ∀ digit ∈ digits.take 1, digit < 10 := fun digit member =>
          small digit (List.mem_of_mem_take member)
        have back : ∀ digit ∈ digits.drop 1, digit < 10 := fun digit member =>
          small digit (List.mem_of_mem_drop member)
        have fraction : ∀ unit ∈ (if (digits.length : ℤ) = 1 then []
            else units "." ++ digitUnits (digits.drop 1)), unit < 128 := by
          split
          · simp
          · exact List.forall_mem_append.mpr ⟨ascii_units (by decide), digitUnits_lt back⟩
        have sign : ∀ unit ∈ (if point - 1 < 0 then units "e-" else units "e+"), unit < 128 := by
          split <;> exact ascii_units (by decide)
        have signLength : (if point - 1 < 0 then units "e-" else units "e+").length = 2 := by
          split <;> decide
        have ends := digitUnits_ends (decimalDigits_ne_nil (point - 1).natAbs)
          fun _ => decimalDigits_lt
        refine ⟨ends.prepend (List.forall_mem_append.mpr ⟨List.forall_mem_append.mpr
          ⟨digitUnits_lt front, fraction⟩, sign⟩), ?_⟩
        rw [List.length_append, List.length_append, signLength]
        omega

theorem intUnits_ends (value : ℤ) : EndsInDigit (intUnits value) := by
  have ends := digitUnits_ends (decimalDigits_ne_nil value.natAbs) fun _ => decimalDigits_lt
  unfold intUnits
  split
  · exact ends.prepend (ascii_units (by decide) : ∀ unit ∈ [(45 : UInt16)], unit < 128)
  · exact ends

theorem intUnits_single {value : ℤ} (single : (intUnits value).length = 1) :
    ∃ digit : ℕ, digit < 10 ∧ value = digit := by
  have present := List.length_pos_of_ne_nil (decimalDigits_ne_nil value.natAbs)
  unfold intUnits at single
  split at single
  · simp only [digitUnits, List.length_cons, List.length_map] at single
    omega
  · rename_i nonnegative
    rw [digitUnits, List.length_map] at single
    obtain ⟨digit, digits⟩ := List.length_eq_one_iff.mp single
    have small : digit < 10 := decimalDigits_lt (digits ▸ List.mem_singleton_self digit)
    have number := digitsValue_decimalDigits value.natAbs
    rw [digits] at number
    simp only [digitsValue, pushDigit, List.foldl_cons, List.foldl_nil] at number
    exact ⟨digit, small, by omega⟩

theorem integerText_cases (value : ℤ) : (JsNumber.finite value).text = intUnits value ∨
    EndsInDigit (JsNumber.finite value).text ∧ 1 < (JsNumber.finite value).text.length := by
  by_cases small : value.natAbs < 2 ^ 53
  · exact Or.inl (finite_text small)
  · right
    have large : (2 : ℚ) ^ 53 ≤ |(value : ℚ)| := by
      rw [← Int.cast_abs, Int.abs_eq_natAbs]
      exact_mod_cast Nat.le_of_not_lt small
    obtain ⟨ends, long⟩ := magnitudeText_large large
    have nonzero : (value : ℚ) ≠ 0 := by
      intro zero
      rw [zero, abs_zero] at large
      exact absurd large (by norm_num)
    rw [JsNumber.text, if_neg nonzero]
    split
    · rename_i negative
      rw [abs_of_neg negative] at ends long
      refine ⟨ends.prepend (ascii_units (by decide) : ∀ unit ∈ units "-", unit < 128), ?_⟩
      rw [List.length_append]
      omega
    · rename_i positive
      rw [abs_of_nonneg (not_lt.mp positive)] at ends long
      exact ⟨ends, long⟩

theorem integer_ends (value : ℤ) : EndsInDigit (JsNumber.finite value).text := by
  rcases integerText_cases value with plain | ⟨ends, _⟩
  · rw [plain]
    exact intUnits_ends value
  · exact ends

theorem digit_text {digit : ℕ} (small : digit < 10) :
    (JsNumber.finite digit).text = [digitUnit digit] := by
  have text : (JsNumber.finite ((digit : ℤ) : ℚ)).text = intUnits digit :=
    finite_text (by simp; omega)
  rw [Int.cast_natCast] at text
  rw [text]
  interval_cases digit <;> decide

theorem integer_single {value : ℤ} (single : (JsNumber.finite value).text.length = 1) :
    ∃ digit : ℕ, digit < 10 ∧ value = digit := by
  rcases integerText_cases value with plain | ⟨_, long⟩
  · rw [plain] at single
    exact intUnits_single single
  · omega

end JavaScript
