import BlockchainAuditor.Library.JsNumberText
import Mathlib.Tactic.Linarith

/-! The doubles among the rationals, and the decimal of seventeen digits that reads back as
a given one. -/

namespace JavaScript

open Decimal

/-- A positive number whose distance to the doubles around it is a whole part of it. -/
def IsDouble (magnitude : ℚ) : Prop := ∃ count : ℤ, magnitude = count * quantum magnitude

def JsNumber.Representable : JsNumber → Prop
  | .finite value => value = 0 ∨ IsDouble |value|
  | _ => True

theorem roundHalfEven_error (value : ℚ) : |(roundHalfEven value : ℚ) - value| ≤ 1 / 2 := by
  have below := Int.floor_le value
  have above := Int.lt_floor_add_one value
  unfold roundHalfEven
  dsimp only
  split
  · rw [abs_le]
    constructor <;> linarith
  · split
    · push_cast
      rw [abs_le]
      constructor <;> linarith
    · split
      · rw [abs_le]
        constructor <;> linarith
      · push_cast
        rw [abs_le]
        constructor <;> linarith

theorem roundHalfEven_near {value : ℚ} {count : ℤ} (near : |value - count| < 1 / 2) :
    roundHalfEven value = count := by
  obtain ⟨errorBelow, errorAbove⟩ := abs_le.mp (roundHalfEven_error value)
  obtain ⟨nearBelow, nearAbove⟩ := abs_lt.mp near
  have lower : (roundHalfEven value : ℚ) < count + 1 := by linarith
  have upper : (count : ℚ) < roundHalfEven value + 1 := by linarith
  have below : roundHalfEven value < count + 1 := by exact_mod_cast lower
  have above : count < roundHalfEven value + 1 := by exact_mod_cast upper
  omega

theorem roundHalfEven_le {value : ℚ} {bound : ℤ} (below : value < bound) :
    roundHalfEven value ≤ bound := by
  obtain ⟨_, error⟩ := abs_le.mp (roundHalfEven_error value)
  have lower : (roundHalfEven value : ℚ) < bound + 1 := by linarith
  have strict : roundHalfEven value < bound + 1 := by exact_mod_cast lower
  omega

theorem roundHalfEven_nonneg {value : ℚ} (nonnegative : 0 ≤ value) : 0 ≤ roundHalfEven value := by
  obtain ⟨error, _⟩ := abs_le.mp (roundHalfEven_error value)
  have upper : (-1 : ℚ) < roundHalfEven value := by linarith
  have strict : (-1 : ℤ) < roundHalfEven value := by exact_mod_cast upper
  omega

theorem quantum_pos (magnitude : ℚ) : 0 < quantum magnitude := zpow_pos (by norm_num) _

theorem binade {magnitude : ℚ} (positive : 0 < magnitude) :
    (2 : ℚ) ^ Int.log 2 magnitude ≤ magnitude ∧ magnitude < 2 ^ Int.log 2 magnitude * 2 := by
  have below := Int.zpow_log_le_self (b := 2) (by decide) positive
  have above := Int.lt_zpow_succ_log_self (b := 2) (by decide) magnitude
  push_cast at below above
  rw [zpow_add_one₀ (by norm_num)] at above
  exact ⟨below, above⟩

theorem zpow_multiple {low high : ℤ} (ordered : low ≤ high) :
    ∃ count : ℤ, (2 : ℚ) ^ high = count * 2 ^ low := by
  refine ⟨2 ^ (high - low).toNat, ?_⟩
  push_cast
  rw [← zpow_natCast, Int.toNat_of_nonneg (by omega), ← zpow_add₀ (by norm_num)]
  congr 1
  omega

theorem zpow_places (exponent : ℤ) (places : ℕ) [places.AtLeastTwo] :
    (2 : ℚ) ^ (exponent + ofNat(places)) = 2 ^ exponent * 2 ^ (ofNat(places) : ℕ) := by
  rw [zpow_add₀ (by norm_num), zpow_ofNat]

theorem quantum_eq (magnitude : ℚ) :
    ∃ exponent : ℤ, quantum magnitude = 2 ^ exponent ∧
      exponent = max (Int.log 2 magnitude - 52) (-1074) := ⟨_, rfl, rfl⟩

theorem isDouble_scaled {count exponent : ℤ} (positive : 0 < count) (bounded : count ≤ 2 ^ 53)
    (least : -1074 ≤ exponent) : IsDouble ((count : ℚ) * 2 ^ exponent) := by
  have factor : (0 : ℚ) < 2 ^ exponent := zpow_pos (by norm_num) _
  have value_pos : 0 < (count : ℚ) * 2 ^ exponent := mul_pos (by exact_mod_cast positive) factor
  rcases Int.lt_or_eq_of_le bounded with below | carried
  · -- the number is in a binade that the exponent serves
    have small : (count : ℚ) * 2 ^ exponent < (2 : ℕ) ^ (exponent + 53) := by
      have bits : (count : ℚ) < 2 ^ 53 := by exact_mod_cast below
      push_cast
      rw [zpow_places, mul_comm]
      exact mul_lt_mul_of_pos_left bits factor
    have log := (Int.lt_zpow_iff_log_lt (by decide) value_pos).mp small
    obtain ⟨shift, whole⟩ : ∃ shift : ℤ, (2 : ℚ) ^ exponent =
        shift * quantum ((count : ℚ) * 2 ^ exponent) := zpow_multiple (by omega)
    refine ⟨count * shift, ?_⟩
    push_cast
    rw [mul_assoc, ← whole]
  · have power : (count : ℚ) * 2 ^ exponent = ((2 : ℕ) : ℚ) ^ (exponent + 53) := by
      rw [carried, Nat.cast_ofNat, zpow_places, mul_comm]
      push_cast
      rfl
    rw [power]
    obtain ⟨shift, whole⟩ : ∃ shift : ℤ, ((2 : ℕ) : ℚ) ^ (exponent + 53) =
        shift * quantum (((2 : ℕ) : ℚ) ^ (exponent + 53)) := by
      have log := Int.log_zpow (R := ℚ) (by decide : 1 < 2) (exponent + 53)
      rw [quantum, log]
      exact zpow_multiple (by omega)
    exact ⟨shift, whole⟩

theorem scaled_lt {magnitude : ℚ} (positive : 0 < magnitude) :
    magnitude / quantum magnitude < ((2 ^ 53 : ℤ) : ℚ) := by
  obtain ⟨exponent, size, defined⟩ := quantum_eq magnitude
  have above := (binade positive).2
  have within : (2 : ℚ) ^ Int.log 2 magnitude ≤ 2 ^ (exponent + 52) :=
    zpow_le_zpow_right₀ (by norm_num) (by omega)
  rw [div_lt_iff₀ (quantum_pos magnitude), size]
  rw [zpow_places] at within
  push_cast
  linarith

theorem nearestDouble_isDouble {magnitude : ℚ} (nonnegative : 0 ≤ magnitude)
    (nonzero : nearestDouble magnitude ≠ 0) :
    0 < nearestDouble magnitude ∧ IsDouble (nearestDouble magnitude) := by
  have present : magnitude ≠ 0 := by
    intro zero
    exact nonzero (by rw [nearestDouble, if_pos zero])
  have positive : 0 < magnitude := lt_of_le_of_ne nonnegative (Ne.symm present)
  have step := quantum_pos magnitude
  obtain ⟨exponent, size, defined⟩ := quantum_eq magnitude
  have rounded : nearestDouble magnitude =
      roundHalfEven (magnitude / quantum magnitude) * quantum magnitude := by
    rw [nearestDouble, if_neg present]
  have count_le := roundHalfEven_le (scaled_lt positive)
  have count_nonneg := roundHalfEven_nonneg (div_pos positive step).le
  rw [rounded] at nonzero ⊢
  generalize roundHalfEven (magnitude / quantum magnitude) = count at *
  have count_pos : 0 < count := by
    rcases Int.lt_or_eq_of_le count_nonneg with above | zero
    · exact above
    · exact absurd (by simp [← zero]) nonzero
  constructor
  · exact mul_pos (by exact_mod_cast count_pos) step
  · rw [size]
    exact isDouble_scaled count_pos count_le (by omega)

theorem IsDouble.quantum_le {magnitude : ℚ} (double : IsDouble magnitude)
    (positive : 0 < magnitude) : quantum magnitude ≤ magnitude := by
  obtain ⟨count, whole⟩ := double
  have step := quantum_pos magnitude
  have product : 0 < (count : ℚ) * quantum magnitude := whole ▸ positive
  have count_pos : 0 < count := by exact_mod_cast (mul_pos_iff_of_pos_right step).mp product
  have one : (1 : ℚ) ≤ count := by exact_mod_cast count_pos
  calc quantum magnitude = 1 * quantum magnitude := (one_mul _).symm
    _ ≤ count * quantum magnitude := mul_le_mul_of_nonneg_right one step.le
    _ = magnitude := whole.symm

theorem IsDouble.next_binade {magnitude : ℚ} (double : IsDouble magnitude)
    (positive : 0 < magnitude) :
    magnitude + quantum magnitude ≤ 2 ^ Int.log 2 magnitude * 2 := by
  have step := quantum_pos magnitude
  have exponent_le : max (Int.log 2 magnitude - 52) (-1074) ≤ Int.log 2 magnitude :=
    (Int.zpow_le_iff_le_log (by decide) positive).mp (double.quantum_le positive)
  obtain ⟨count, whole⟩ := double
  obtain ⟨next, nextWhole⟩ : ∃ next : ℤ, (2 : ℚ) ^ (Int.log 2 magnitude + 1) =
      next * quantum magnitude := zpow_multiple (by omega)
  rw [zpow_add_one₀ (by norm_num)] at nextWhole
  have ordered : (count : ℚ) * quantum magnitude < next * quantum magnitude := by
    rw [← whole, ← nextWhole]
    exact (binade positive).2
  have strict : (count : ℚ) < next := lt_of_mul_lt_mul_right ordered step.le
  have apart : (count : ℚ) + 1 ≤ next := by exact_mod_cast strict
  have gap := mul_le_mul_of_nonneg_right apart step.le
  rwa [add_mul, one_mul, ← whole, ← nextWhole] at gap

theorem quantum_scale (magnitude : ℚ) :
    (2 : ℚ) ^ Int.log 2 magnitude ≤ quantum magnitude * 2 ^ 52 := by
  have fine : (2 : ℚ) ^ (Int.log 2 magnitude - 52) ≤ quantum magnitude :=
    zpow_le_zpow_right₀ (by norm_num) (le_max_left _ _)
  have scale : (2 : ℚ) ^ Int.log 2 magnitude = 2 ^ (Int.log 2 magnitude - 52) * 2 ^ 52 := by
    rw [← zpow_places, sub_add_cancel]
  linarith

section Near

variable {magnitude decimal : ℚ}

theorem near_binade (positive : 0 < magnitude) (double : IsDouble magnitude)
    (near : |decimal - magnitude| ≤ magnitude * (5 / 10 ^ 17)) :
    Int.log 2 magnitude - 1 ≤ Int.log 2 decimal ∧ Int.log 2 decimal ≤ Int.log 2 magnitude := by
  obtain ⟨nearBelow, nearAbove⟩ := abs_le.mp near
  obtain ⟨low, high⟩ := binade positive
  have decimal_pos : 0 < decimal := by linarith
  constructor
  · refine (Int.zpow_le_iff_le_log (by decide) decimal_pos).mp ?_
    push_cast
    rw [zpow_sub_one₀ (by norm_num)]
    linarith
  · by_contra later
    have reached : ((2 : ℕ) : ℚ) ^ (Int.log 2 magnitude + 1) ≤ decimal :=
      (Int.zpow_le_iff_le_log (by decide) decimal_pos).mpr (by omega)
    push_cast at reached
    rw [zpow_add_one₀ (by norm_num)] at reached
    have behind := double.next_binade positive
    have fine := quantum_scale magnitude
    linarith

/-- Half the distance between doubles is more than five units of the seventeenth digit. -/
theorem nearestDouble_close (positive : 0 < magnitude) (double : IsDouble magnitude)
    (near : |decimal - magnitude| ≤ magnitude * (5 / 10 ^ 17)) :
    nearestDouble decimal = magnitude := by
  obtain ⟨above, below⟩ := near_binade positive double near
  obtain ⟨count, whole⟩ := double
  obtain ⟨nearBelow, _⟩ := abs_le.mp near
  have decimal_pos : 0 < decimal := by linarith
  have decimalStep := quantum_pos decimal
  obtain ⟨shift, finer⟩ : ∃ shift : ℤ, quantum magnitude = shift * quantum decimal :=
    zpow_multiple (by omega)
  have value : magnitude = ((count * shift : ℤ) : ℚ) * quantum decimal := by
    push_cast
    rw [mul_assoc, ← finer]
    exact whole
  have half : |decimal - magnitude| < quantum decimal * (1 / 2) := by
    have high := (binade positive).2
    have decimalHigh := (binade decimal_pos).2
    have fine := quantum_scale decimal
    refine lt_of_le_of_lt near ?_
    rcases (by omega : Int.log 2 decimal = Int.log 2 magnitude ∨
      Int.log 2 decimal = Int.log 2 magnitude - 1) with same | lower
    · rw [same] at fine
      linarith
    · linarith
  have rounds : roundHalfEven (decimal / quantum decimal) = count * shift := by
    refine roundHalfEven_near ?_
    have difference : decimal / quantum decimal - ((count * shift : ℤ) : ℚ) =
        (decimal - magnitude) / quantum decimal := by
      rw [sub_div, value, mul_div_cancel_right₀ _ decimalStep.ne']
    rw [difference, abs_div, abs_of_pos decimalStep, div_lt_iff₀ decimalStep, mul_comm]
    exact half
  rw [nearestDouble, if_neg decimal_pos.ne', rounds]
  exact value.symm

end Near

theorem roundHalfEven_neighbour {magnitude place : ℚ} (scaled : 0 ≤ magnitude / place) :
    ∃ number ∈ neighbours magnitude place, (number : ℤ) = roundHalfEven (magnitude / place) := by
  have floor : (((magnitude / place).floor.toNat : ℕ) : ℤ) = ⌊magnitude / place⌋ :=
    Int.toNat_of_nonneg (Int.floor_nonneg.mpr scaled)
  have either : roundHalfEven (magnitude / place) = ⌊magnitude / place⌋ ∨
      roundHalfEven (magnitude / place) = ⌊magnitude / place⌋ + 1 := by
    unfold roundHalfEven
    dsimp only
    split
    · exact Or.inl rfl
    · split
      · exact Or.inr rfl
      · split
        · exact Or.inl rfl
        · exact Or.inr rfl
  rcases either with low | high
  · refine ⟨(magnitude / place).floor.toNat, ?_, by rw [floor, low]⟩
    rw [neighbours]
    split <;> simp
  · refine ⟨(magnitude / place).floor.toNat + 1, ?_, by rw [Nat.cast_add, floor, high]; rfl⟩
    rw [neighbours]
    split <;> simp

theorem exists_seventeen {magnitude : ℚ} (positive : 0 < magnitude) (double : IsDouble magnitude) :
    ∃ number ∈ neighbours magnitude (10 ^ (Int.log 10 magnitude + 1 - ((16 : ℕ) + 1 : ℤ))),
      nearestDouble (number * 10 ^ (Int.log 10 magnitude + 1 - ((16 : ℕ) + 1 : ℤ))) =
        magnitude := by
  have place_pos : (0 : ℚ) < 10 ^ (Int.log 10 magnitude + 1 - ((16 : ℕ) + 1 : ℤ)) :=
    zpow_pos (by norm_num) _
  have small : (10 : ℚ) ^ (Int.log 10 magnitude + 1 - ((16 : ℕ) + 1 : ℤ)) * 10 ^ 16 ≤ magnitude := by
    have log := Int.zpow_log_le_self (b := 10) (by decide) positive
    have split : Int.log 10 magnitude =
        (Int.log 10 magnitude + 1 - ((16 : ℕ) + 1 : ℤ)) + 16 := by
      push_cast
      ring
    rw [split, Nat.cast_ofNat, zpow_add₀ (by norm_num), zpow_ofNat] at log
    exact log
  generalize (10 : ℚ) ^ (Int.log 10 magnitude + 1 - ((16 : ℕ) + 1 : ℤ)) = place at place_pos small ⊢
  obtain ⟨number, near, rounded⟩ := roundHalfEven_neighbour (div_pos positive place_pos).le
  refine ⟨number, near, nearestDouble_close positive double ?_⟩
  have error := roundHalfEven_error (magnitude / place)
  rw [← rounded, Int.cast_natCast] at error
  have scaled : (number : ℚ) * place - magnitude = (number - magnitude / place) * place := by
    rw [sub_mul, div_mul_cancel₀ _ place_pos.ne']
  rw [scaled, abs_mul, abs_of_pos place_pos]
  calc |(number : ℚ) - magnitude / place| * place ≤ 1 / 2 * place :=
        mul_le_mul_of_nonneg_right error place_pos.le
    _ ≤ magnitude * (5 / 10 ^ 17) := by linarith

theorem shortestDigits_proper {magnitude : ℚ} (positive : 0 < magnitude)
    (double : IsDouble magnitude) :
    ∃ first rest, (shortestDigits magnitude).1 = first :: rest ∧ first ≠ 0 := by
  have headed : ∀ number : ℕ, number ≠ 0 → ∃ first rest, decimalDigits number = first :: rest ∧
      first ≠ 0 := by
    intro number nonzero
    obtain ⟨first, rest, split⟩ := List.exists_cons_of_ne_nil (decimalDigits_ne_nil number)
    exact ⟨first, rest, split, decimalDigits_head nonzero split⟩
  rcases shortestDigits_cases positive.le with
    ⟨number, rfl, small⟩ | ⟨_, none⟩ | ⟨number, places, near, _, found⟩
  · have bound : (number : ℚ) < 2 ^ 53 := by exact_mod_cast small
    have nonzero : number ≠ 0 := by
      rintro rfl
      exact absurd positive (by simp)
    simp only [shortestDigits, Rat.den_natCast, bound, and_self, if_true]
    exact headed number nonzero
  · obtain ⟨number, near, reads⟩ := exists_seventeen positive double
    exact absurd reads (none 16 (by decide) number near)
  · have large := neighbours_ge (scaled_ge positive places) near
    have nonzero : number ≠ 0 := by
      have power : 0 < 10 ^ places := by positivity
      omega
    obtain ⟨first, rest, split, nonzeroFirst⟩ := headed number nonzero
    rw [found]
    refine ⟨first, (rest.reverse.dropWhile (· = 0)).reverse, ?_, nonzeroFirst⟩
    dsimp only
    rw [split, List.reverse_cons, List.dropWhile_append]
    split
    · rename_i zeros
      simp [nonzeroFirst, List.isEmpty_iff.mp zeros]
    · simp

theorem IsDouble.nearest {magnitude : ℚ} (double : IsDouble magnitude) :
    nearestDouble magnitude = magnitude := by
  obtain ⟨count, value⟩ := double
  have scaled : magnitude / quantum magnitude = count := by
    rw [div_eq_iff (quantum_pos magnitude).ne']
    exact value
  unfold nearestDouble
  split
  · rename_i zero
    exact zero.symm
  · rw [scaled, roundHalfEven_int]
    exact value.symm

def pointed (digits : List ℕ) (point : ℤ) : ℚ := digitsValue digits * 10 ^ (point - digits.length)

theorem pointed_zeros (digits : List ℕ) (count : ℕ) (point : ℤ) :
    pointed (digits ++ List.replicate count 0) point = pointed digits point := by
  have shift : point - digits.length = point - (digits ++ List.replicate count 0).length + count := by
    rw [List.length_append, List.length_replicate]
    push_cast
    ring
  rw [pointed, pointed, digitsValue_append, digitsValue_zeros, List.length_replicate, shift,
    zpow_add₀ (by norm_num), zpow_natCast]
  push_cast
  ring

theorem pointed_trimmed (digits : List ℕ) (point : ℤ) :
    pointed (digits.reverse.dropWhile (· = 0)).reverse point = pointed digits point := by
  have zeros : digits.reverse.takeWhile (· = 0) =
      List.replicate (digits.reverse.takeWhile (· = 0)).length 0 :=
    List.eq_replicate_of_mem fun digit member => by simpa using List.mem_takeWhile_imp member
  have split : digits = (digits.reverse.dropWhile (· = 0)).reverse ++
      (digits.reverse.takeWhile (· = 0)).reverse := by
    rw [← List.reverse_append, List.takeWhile_append_dropWhile, List.reverse_reverse]
  conv => rhs; rw [split, zeros, List.reverse_replicate]
  exact (pointed_zeros _ _ _).symm

theorem shortestDigits_reads {magnitude : ℚ} (positive : 0 < magnitude)
    (double : IsDouble magnitude) :
    nearestDouble (pointed (shortestDigits magnitude).1 (shortestDigits magnitude).2) = magnitude := by
  rcases shortestDigits_cases positive.le with
    ⟨number, rfl, small⟩ | ⟨_, none⟩ | ⟨number, places, _, reads, found⟩
  · have bound : (number : ℚ) < 2 ^ 53 := by exact_mod_cast small
    have whole : pointed (decimalDigits number) (decimalDigits number).length = number := by
      rw [pointed, digitsValue_decimalDigits, sub_self, zpow_zero, mul_one]
    simp only [shortestDigits, Rat.den_natCast, bound, and_self, if_true, Rat.num_natCast,
      Int.toNat_natCast, whole]
    exact nearestDouble_nat small
  · obtain ⟨number, near, reads⟩ := exists_seventeen positive double
    exact absurd reads (none 16 (by decide) number near)
  · rw [found]
    dsimp only
    rw [pointed_trimmed, pointed, digitsValue_decimalDigits, add_sub_cancel_right]
    exact reads

end JavaScript
