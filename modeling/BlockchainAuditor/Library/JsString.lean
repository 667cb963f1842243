import BlockchainAuditor.Library.CStrings

/-! JavaScript strings, which are sequences of UTF-16 code units, and their UTF-8 form
as buffers write and read it. -/

namespace JavaScript

open CStrings (Bytes)

abbrev JsString := List UInt16

def units (text : String) : JsString := text.toList.map fun c => c.toNat.toUInt16

def isHighSurrogate (unit : UInt16) : Bool := 0xD800 ≤ unit && unit ≤ 0xDBFF

def isLowSurrogate (unit : UInt16) : Bool := 0xDC00 ≤ unit && unit ≤ 0xDFFF

def replacementCharacter : Char := '\uFFFD'

def charUnits (c : Char) : JsString :=
  if c.toNat < 0x10000 then [c.toNat.toUInt16]
  else [(0xD800 + (c.toNat - 0x10000) / 0x400).toUInt16,
    (0xDC00 + (c.toNat - 0x10000) % 0x400).toUInt16]

def ofChars (chars : List Char) : JsString := chars.flatMap charUnits

def unitChar (unit : UInt16) : Char :=
  if isHighSurrogate unit || isLowSurrogate unit then replacementCharacter
  else Char.ofNat unit.toNat

def pairChar (high low : UInt16) : Char :=
  Char.ofNat (0x10000 + (high.toNat - 0xD800) * 0x400 + (low.toNat - 0xDC00))

/-- The characters of a string; a surrogate without its other half is not one. -/
def toChars : JsString → List Char
  | [] => []
  | [unit] => [unitChar unit]
  | unit :: next :: rest =>
    if isHighSurrogate unit && isLowSurrogate next then pairChar unit next :: toChars rest
    else unitChar unit :: toChars (next :: rest)

def encodeUtf8 (text : JsString) : Bytes := (toChars text).flatMap String.utf8EncodeChar

def decodeChar (bytes : Bytes) : Option Char := bytes.toByteArray.utf8DecodeChar? 0

def isContinuation (byte : UInt8) : Bool := 0x80 ≤ byte && byte ≤ 0xBF

def isSecond (first second : UInt8) : Bool :=
  if first = 0xE0 then 0xA0 ≤ second && second ≤ 0xBF
  else if first = 0xED then 0x80 ≤ second && second ≤ 0x9F
  else if first = 0xF0 then 0x90 ≤ second && second ≤ 0xBF
  else if first = 0xF4 then 0x80 ≤ second && second ≤ 0x8F
  else isContinuation second

/-- How many bytes one replacement character stands for where no character starts. -/
def malformedLength : Bytes → Nat
  | first :: second :: rest =>
    if 0xE0 ≤ first && first ≤ 0xEF && isSecond first second then 2
    else if 0xF0 ≤ first && first ≤ 0xF4 && isSecond first second then
      if (rest.head?.map isContinuation).getD false then 3 else 2
    else 1
  | _ => 1

def decodeFrom : Nat → Bytes → List Char
  | _, [] => []
  | skipped + 1, _ :: rest => decodeFrom skipped rest
  | 0, byte :: rest =>
    match decodeChar (byte :: rest) with
    | some c => c :: decodeFrom (c.utf8Size - 1) rest
    | none => replacementCharacter :: decodeFrom (malformedLength (byte :: rest) - 1) rest

def decodeUtf8 (bytes : Bytes) : JsString := ofChars (decodeFrom 0 bytes)

def ValidUtf8 (bytes : Bytes) : Prop := ∃ chars : List Char, bytes = chars.flatMap String.utf8EncodeChar

theorem char_range (c : Char) : c.toNat < 0xD800 ∨ 0xDFFF < c.toNat ∧ c.toNat < 0x110000 :=
  c.valid

theorem toChars_charUnits (c : Char) (rest : JsString) :
    toChars (charUnits c ++ rest) = c :: toChars rest := by
  have range := char_range c
  unfold charUnits
  by_cases small : c.toNat < 0x10000
  · have value : c.toNat.toUInt16.toNat = c.toNat := by
      simp only [Nat.toUInt16_eq, UInt16.toNat_ofNat']
      omega
    have notHigh : isHighSurrogate c.toNat.toUInt16 = false := by
      simp only [isHighSurrogate, UInt16.le_iff_toNat_le, value, UInt16.reduceToNat,
        Bool.and_eq_false_iff, decide_eq_false_iff_not]
      omega
    have notLow : isLowSurrogate c.toNat.toUInt16 = false := by
      simp only [isLowSurrogate, UInt16.le_iff_toNat_le, value, UInt16.reduceToNat,
        Bool.and_eq_false_iff, decide_eq_false_iff_not]
      omega
    have same : unitChar c.toNat.toUInt16 = c := by
      rw [unitChar, notHigh, notLow, value]
      exact Char.ofNat_toNat c
    rw [if_pos small]
    cases rest with
    | nil => simp [toChars, same]
    | cons next rest => simp [toChars, notHigh, same]
  · rw [if_neg small]
    have offset : (c.toNat - 0x10000) / 0x400 < 0x400 := by omega
    have high : ((0xD800 + (c.toNat - 0x10000) / 0x400).toUInt16).toNat =
        0xD800 + (c.toNat - 0x10000) / 0x400 := by
      simp only [Nat.toUInt16_eq, UInt16.toNat_ofNat']
      omega
    have low : ((0xDC00 + (c.toNat - 0x10000) % 0x400).toUInt16).toNat =
        0xDC00 + (c.toNat - 0x10000) % 0x400 := by
      simp only [Nat.toUInt16_eq, UInt16.toNat_ofNat']
      omega
    have isHigh : isHighSurrogate (0xD800 + (c.toNat - 0x10000) / 0x400).toUInt16 = true := by
      simp only [isHighSurrogate, UInt16.le_iff_toNat_le, high, UInt16.reduceToNat,
        Bool.and_eq_true, decide_eq_true_eq]
      omega
    have isLow : isLowSurrogate (0xDC00 + (c.toNat - 0x10000) % 0x400).toUInt16 = true := by
      simp only [isLowSurrogate, UInt16.le_iff_toNat_le, low, UInt16.reduceToNat,
        Bool.and_eq_true, decide_eq_true_eq]
      omega
    have same : pairChar (0xD800 + (c.toNat - 0x10000) / 0x400).toUInt16
        (0xDC00 + (c.toNat - 0x10000) % 0x400).toUInt16 = c := by
      have code : 0x10000 + (0xD800 + (c.toNat - 0x10000) / 0x400 - 0xD800) * 0x400 +
          (0xDC00 + (c.toNat - 0x10000) % 0x400 - 0xDC00) = c.toNat := by omega
      rw [pairChar, high, low, code, Char.ofNat_toNat]
    simp only [List.cons_append, List.nil_append, toChars, isHigh, isLow, Bool.and_self, if_true,
      same]

theorem toChars_ofChars (chars : List Char) : toChars (ofChars chars) = chars := by
  induction chars with
  | nil => rfl
  | cons c chars ih =>
      have first := toChars_charUnits c (ofChars chars)
      rw [ih] at first
      simpa [ofChars] using first

theorem decodeFrom_drop (skipped : Nat) (bytes : Bytes) :
    decodeFrom skipped bytes = decodeFrom 0 (bytes.drop skipped) := by
  induction bytes generalizing skipped with
  | nil => cases skipped <;> simp [decodeFrom]
  | cons byte bytes ih =>
      cases skipped with
      | zero => rfl
      | succ skipped => simpa [decodeFrom] using ih skipped

theorem decodeFrom_char (c : Char) (rest : Bytes) :
    decodeFrom 0 (String.utf8EncodeChar c ++ rest) = c :: decodeFrom 0 rest := by
  have whole : decodeChar (String.utf8EncodeChar c ++ rest) = some c := by
    rw [decodeChar, List.toByteArray_append]
    exact ByteArray.utf8DecodeChar?_utf8EncodeChar_append
  have length := String.length_utf8EncodeChar c
  cases encoded : String.utf8EncodeChar c with
  | nil =>
      have positive := c.utf8Size_pos
      simp [encoded] at length
      omega
  | cons byte bytes =>
      rw [encoded] at whole length
      have after : c.utf8Size - 1 = bytes.length := by
        rw [← length]
        rfl
      rw [List.cons_append] at whole ⊢
      simp only [decodeFrom, whole]
      rw [decodeFrom_drop, after, List.drop_left]

theorem decodeFrom_chars (chars : List Char) (rest : Bytes) :
    decodeFrom 0 (chars.flatMap String.utf8EncodeChar ++ rest) = chars ++ decodeFrom 0 rest := by
  induction chars with
  | nil => rfl
  | cons c chars ih =>
      rw [List.flatMap_cons, List.append_assoc, decodeFrom_char, ih]
      rfl

theorem decodeUtf8_append {bytes : Bytes} (valid : ValidUtf8 bytes) (rest : Bytes) :
    decodeUtf8 (bytes ++ rest) = decodeUtf8 bytes ++ decodeUtf8 rest := by
  obtain ⟨content, rfl⟩ := valid
  have alone := decodeFrom_chars content []
  rw [List.append_nil] at alone
  rw [decodeUtf8, decodeUtf8, decodeUtf8, decodeFrom_chars, alone]
  simp [ofChars, decodeFrom]

theorem encodeUtf8_decodeUtf8 {bytes : Bytes} (valid : ValidUtf8 bytes) :
    encodeUtf8 (decodeUtf8 bytes) = bytes := by
  obtain ⟨content, rfl⟩ := valid
  have decoded := decodeFrom_chars content []
  rw [List.append_nil] at decoded
  rw [encodeUtf8, decodeUtf8, toChars_ofChars, decoded]
  simp [decodeFrom]

def isAscii (bytes : Bytes) : Bool := bytes.all fun byte => byte < 128

theorem isAscii_iff {bytes : Bytes} : isAscii bytes = true ↔ ∀ byte ∈ bytes, byte < 128 := by
  simp [isAscii]

theorem mem_utf8EncodeChar {byte : UInt8} (ascii : byte < 128) (c : Char) :
    byte ∈ String.utf8EncodeChar c ↔ c.toNat = byte.toNat := by
  have bound : byte.toNat < 128 := UInt8.lt_iff_toNat_lt.mp ascii
  have code : c.val.toNat = c.toNat := rfl
  have range := char_range c
  simp only [String.utf8EncodeChar, code]
  split
  · simp only [List.mem_cons, List.not_mem_nil, or_false, ← UInt8.toNat_inj, UInt8.toNat_ofNat']
    omega
  · split
    · simp only [List.mem_cons, List.not_mem_nil, or_false, ← UInt8.toNat_inj,
        UInt8.toNat_ofNat']
      omega
    · split
      · simp only [List.mem_cons, List.not_mem_nil, or_false, ← UInt8.toNat_inj,
          UInt8.toNat_ofNat']
        omega
      · simp only [List.mem_cons, List.not_mem_nil, or_false, ← UInt8.toNat_inj,
          UInt8.toNat_ofNat']
        omega

theorem mem_charUnits {unit : UInt16} (ascii : unit < 128) (c : Char) :
    unit ∈ charUnits c ↔ c.toNat = unit.toNat := by
  have bound : unit.toNat < 128 := UInt16.lt_iff_toNat_lt.mp ascii
  have range := char_range c
  unfold charUnits
  split
  · simp only [List.mem_singleton, ← UInt16.toNat_inj, Nat.toUInt16_eq, UInt16.toNat_ofNat']
    omega
  · simp only [List.mem_cons, List.not_mem_nil, or_false, ← UInt16.toNat_inj, Nat.toUInt16_eq,
      UInt16.toNat_ofNat']
    omega

theorem mem_decodeUtf8 {byte : UInt8} {bytes : Bytes} (valid : ValidUtf8 bytes)
    (ascii : byte < 128) : byte.toUInt16 ∈ decodeUtf8 bytes ↔ byte ∈ bytes := by
  obtain ⟨content, rfl⟩ := valid
  have decoded := decodeFrom_chars content []
  have asciiUnit : byte.toUInt16 < 128 := by
    rw [UInt16.lt_iff_toNat_lt, UInt8.toNat_toUInt16]
    exact UInt8.lt_iff_toNat_lt.mp ascii
  rw [List.append_nil, decodeFrom, List.append_nil] at decoded
  simp only [decodeUtf8, decoded, ofChars, List.mem_flatMap, mem_charUnits asciiUnit,
    mem_utf8EncodeChar ascii, UInt8.toNat_toUInt16]

theorem toNat_ofNat_ascii {code : Nat} (ascii : code < 128) : (Char.ofNat code).toNat = code := by
  rw [Char.ofNat, dif_pos (Or.inl (by omega))]
  rfl

theorem utf8EncodeChar_ascii {byte : UInt8} (ascii : byte < 128) :
    String.utf8EncodeChar (Char.ofNat byte.toNat) = [byte] := by
  have bound : byte.toNat < 128 := UInt8.lt_iff_toNat_lt.mp ascii
  have code : (Char.ofNat byte.toNat).val.toNat = byte.toNat := toNat_ofNat_ascii bound
  simp only [String.utf8EncodeChar, code]
  rw [if_pos (by omega)]
  simp

theorem validUtf8_ascii {bytes : Bytes} (ascii : isAscii bytes = true) : ValidUtf8 bytes := by
  rw [isAscii_iff] at ascii
  refine ⟨bytes.map fun byte => Char.ofNat byte.toNat, ?_⟩
  induction bytes with
  | nil => rfl
  | cons byte bytes ih =>
      rw [List.map_cons, List.flatMap_cons, utf8EncodeChar_ascii (ascii byte (by simp)),
        ← ih fun other member => ascii other (by simp [member])]
      rfl

theorem decodeUtf8_ascii {bytes : Bytes} (ascii : isAscii bytes = true) (rest : Bytes) :
    decodeUtf8 (bytes ++ rest) = bytes.map UInt8.toUInt16 ++ decodeUtf8 rest := by
  rw [isAscii_iff] at ascii
  induction bytes with
  | nil => rfl
  | cons byte bytes ih =>
      have small := ascii byte (by simp)
      have bound : byte.toNat < 128 := UInt8.lt_iff_toNat_lt.mp small
      have first := decodeFrom_char (Char.ofNat byte.toNat) (bytes ++ rest)
      rw [utf8EncodeChar_ascii small] at first
      have unit : charUnits (Char.ofNat byte.toNat) = [byte.toUInt16] := by
        rw [charUnits, toNat_ofNat_ascii bound, if_pos (by omega)]
        simp
      have tail := ih fun other member => ascii other (by simp [member])
      simp only [decodeUtf8] at tail
      simp only [decodeUtf8, List.cons_append, List.nil_append] at first ⊢
      rw [first, ofChars, List.flatMap_cons, ← ofChars, unit, tail]
      rfl

theorem encodeUtf8_ascii {text : JsString} (ascii : ∀ unit ∈ text, unit < 128) :
    encodeUtf8 text = text.map UInt16.toUInt8 := by
  have small : isAscii (text.map UInt16.toUInt8) = true := by
    refine isAscii_iff.mpr fun byte member => ?_
    obtain ⟨unit, inside, rfl⟩ := List.mem_map.mp member
    have bound := UInt16.lt_iff_toNat_lt.mp (ascii unit inside)
    simp only [UInt16.reduceToNat] at bound
    rw [UInt8.lt_iff_toNat_lt, UInt16.toNat_toUInt8]
    simp only [UInt8.reduceToNat]
    omega
  have widened : (text.map UInt16.toUInt8).map UInt8.toUInt16 = text := by
    rw [List.map_map]
    conv => rhs; rw [← List.map_id text]
    refine List.map_congr_left fun unit inside => ?_
    have bound := UInt16.lt_iff_toNat_lt.mp (ascii unit inside)
    simp only [UInt16.reduceToNat] at bound
    apply UInt16.toNat_inj.mp
    simp only [Function.comp_apply, id_eq, UInt8.toNat_toUInt16, UInt16.toNat_toUInt8]
    omega
  have decoded := decodeUtf8_ascii small []
  have ended : decodeUtf8 [] = [] := rfl
  rw [List.append_nil, ended, List.append_nil, widened] at decoded
  conv => lhs; rw [← decoded]
  exact encodeUtf8_decodeUtf8 (validUtf8_ascii small)

theorem validUtf8_encodeUtf8 (text : JsString) : ValidUtf8 (encodeUtf8 text) := ⟨toChars text, rfl⟩

theorem ValidUtf8.append {left right : Bytes} (valid : ValidUtf8 left) (also : ValidUtf8 right) :
    ValidUtf8 (left ++ right) := by
  obtain ⟨chars, rfl⟩ := valid
  obtain ⟨others, rfl⟩ := also
  exact ⟨chars ++ others, by simp⟩

theorem encodeUtf8_eq_nil {text : JsString} : encodeUtf8 text = [] ↔ text = [] := by
  constructor
  · intro empty
    have noChars : toChars text = [] := by
      cases chars : toChars text with
      | nil => rfl
      | cons c rest =>
          have length := String.length_utf8EncodeChar c
          have positive := c.utf8Size_pos
          rw [encodeUtf8, chars, List.flatMap_cons, List.append_eq_nil_iff] at empty
          rw [empty.1, List.length_nil] at length
          omega
    match text with
    | [] => rfl
    | [unit] => simp [toChars] at noChars
    | unit :: next :: rest =>
        rw [toChars] at noChars
        split at noChars <;> simp at noChars
  · rintro rfl
    rfl

def WellFormed (text : JsString) : Prop := ∃ chars, text = ofChars chars

theorem wellFormed_iff {text : JsString} : WellFormed text ↔ ofChars (toChars text) = text := by
  constructor
  · rintro ⟨chars, rfl⟩
    rw [toChars_ofChars]
  · intro same
    exact ⟨toChars text, same.symm⟩

theorem WellFormed.decoded {text : JsString} (wellFormed : WellFormed text) :
    decodeUtf8 (encodeUtf8 text) = text := by
  obtain ⟨chars, rfl⟩ := wellFormed
  have decoded := decodeFrom_chars chars []
  rw [List.append_nil, decodeFrom, List.append_nil] at decoded
  rw [encodeUtf8, toChars_ofChars, decodeUtf8, decoded]

theorem wellFormed_nil : WellFormed [] := ⟨[], rfl⟩

theorem WellFormed.append {left right : JsString} (wellFormed : WellFormed left)
    (also : WellFormed right) : WellFormed (left ++ right) := by
  obtain ⟨chars, rfl⟩ := wellFormed
  obtain ⟨others, rfl⟩ := also
  exact ⟨chars ++ others, by simp [ofChars]⟩

theorem wellFormed_unit {unit : UInt16} (notHigh : isHighSurrogate unit = false)
    (notLow : isLowSurrogate unit = false) : WellFormed [unit] := by
  have bound := unit.toNat_lt
  simp only [isHighSurrogate, isLowSurrogate, Bool.and_eq_false_iff, decide_eq_false_iff_not,
    UInt16.le_iff_toNat_le, UInt16.reduceToNat] at notHigh notLow
  have valid : unit.toNat.isValidChar := by
    rcases (by omega : unit.toNat < 0xD800 ∨ 0xDFFF < unit.toNat) with below | above
    · exact Or.inl below
    · exact Or.inr ⟨above, by omega⟩
  refine ⟨[Char.ofNat unit.toNat], ?_⟩
  have value : (Char.ofNat unit.toNat).toNat = unit.toNat := by
    rw [Char.ofNat, dif_pos valid]
    rfl
  simp [ofChars, charUnits, value, bound]

theorem wellFormed_pair {high low : UInt16} (isHigh : isHighSurrogate high = true)
    (isLow : isLowSurrogate low = true) : WellFormed [high, low] := by
  simp only [isHighSurrogate, isLowSurrogate, Bool.and_eq_true, decide_eq_true_eq,
    UInt16.le_iff_toNat_le, UInt16.reduceToNat] at isHigh isLow
  obtain ⟨code, defined⟩ : ∃ code,
      0x10000 + (high.toNat - 0xD800) * 0x400 + (low.toNat - 0xDC00) = code := ⟨_, rfl⟩
  have value : (Char.ofNat code).toNat = code := by
    rw [Char.ofNat, dif_pos (Or.inr ⟨by omega, by omega⟩)]
    rfl
  refine ⟨[Char.ofNat code], ?_⟩
  have first : 0xD800 + (code - 0x10000) / 0x400 = high.toNat := by omega
  have second : 0xDC00 + (code - 0x10000) % 0x400 = low.toNat := by omega
  have large : ¬code < 0x10000 := by omega
  simp [ofChars, charUnits, value, large, first, second]

theorem wellFormed_ascii {text : JsString} (ascii : ∀ unit ∈ text, unit < 128) : WellFormed text := by
  induction text with
  | nil => exact wellFormed_nil
  | cons unit rest ih =>
      obtain ⟨first, others⟩ := List.forall_mem_cons.mp ascii
      have small : unit.toNat < 128 := by simpa [UInt16.lt_iff_toNat_lt] using first
      have single : WellFormed [unit] := by
        apply wellFormed_unit
        · simp only [isHighSurrogate, Bool.and_eq_false_iff, decide_eq_false_iff_not,
            UInt16.le_iff_toNat_le, UInt16.reduceToNat]
          omega
        · simp only [isLowSurrogate, Bool.and_eq_false_iff, decide_eq_false_iff_not,
            UInt16.le_iff_toNat_le, UInt16.reduceToNat]
          omega
      exact single.append (ih others)

end JavaScript
