import BlockchainAuditor.IntegerText

/-! The two numbers of a log line: what `audit_event_from_json` makes of the numeral behind
their keys, and when this is the integer that the numeral denotes. -/

namespace BlockchainAuditor

open CStrings Decimal KeyedText

def leadingValue (text : Bytes) : Nat :=
  digitsValue ((text.takeWhile isDigit).map fun c => c.toNat - 48)

/-- The integer of the optionally signed numeral at the front of a text, 0 when there is none. -/
def denoted (text : Bytes) : Int := (scanSigned text).getD 0

theorem scanDigits_getD (text : Bytes) : (scanDigits text).getD 0 = leadingValue text := by
  unfold scanDigits leadingValue
  dsimp only
  split
  · rename_i none
    simp [none, digitsValue]
  · rfl

theorem denoted_minus (text : Bytes) : denoted (minus :: text) = -(leadingValue text : Int) := by
  rw [denoted, scanSigned, if_pos rfl, ← scanDigits_getD]
  cases scanDigits text <;> rfl

theorem denoted_unsigned {text : Bytes} (notMinus : text.head? ≠ some minus)
    (notPlus : text.head? ≠ some plus) : denoted text = leadingValue text := by
  cases text with
  | nil => rfl
  | cons c rest =>
      rw [denoted, scanSigned, if_neg (by simpa using notMinus), if_neg (by simpa using notPlus),
        ← scanDigits_getD]
      cases scanDigits (c :: rest) <;> rfl

theorem digit_digitByte {c : UInt8} (digit : isDigit c = true) :
    c.toNat - 48 < 10 ∧ digitByte (c.toNat - 48) = c := by
  simp only [isDigit, Bool.and_eq_true, decide_eq_true_eq, UInt8.le_iff_toNat_le,
    UInt8.reduceToNat] at digit
  refine ⟨by omega, ?_⟩
  rw [digitByte, ← UInt8.toNat_inj, Nat.toUInt8_eq, UInt8.toNat_ofNat']
  omega

theorem readDigits_inside (overflow : Overflow) {text : Bytes} (fits : leadingValue text < 2 ^ 31) :
    readDigits overflow (text ++ [0]) 0 = some (Int32.ofInt (leadingValue text)) := by
  have spelled : (text.takeWhile isDigit).map (fun c => digitByte (c.toNat - 48)) =
      text.takeWhile isDigit := by
    refine (List.map_congr_left fun c member => ?_).trans (List.map_id _)
    exact (digit_digitByte (List.mem_takeWhile_imp member)).2
  have small : ∀ digit ∈ (text.takeWhile isDigit).map (fun c => c.toNat - 48), digit < 10 := by
    intro digit member
    obtain ⟨c, inside, rfl⟩ := List.mem_map.mp member
    exact (digit_digitByte (List.mem_takeWhile_imp inside)).1
  have reads := readDigits_digits overflow _ (text.dropWhile isDigit ++ [0]) 0 small fits
  rw [List.map_map] at reads
  change readDigits overflow ((text.takeWhile isDigit).map (fun c => digitByte (c.toNat - 48)) ++
    (text.dropWhile isDigit ++ [0])) 0 = _ at reads
  rw [spelled, ← List.append_assoc, List.takeWhile_append_dropWhile] at reads
  rw [reads]
  cases rest : text.dropWhile isDigit with
  | nil => exact readDigits_stop overflow (by decide) _ _
  | cons c more =>
      have stops := List.head?_dropWhile_not isDigit text
      rw [rest] at stops
      exact readDigits_stop overflow (by simpa using stops) _ _

theorem narrow_outside {number : Nat} (exceeds : 2 ^ 31 ≤ number) :
    narrow (fun _ => none) number = none := by
  have highest : Int32.maxValue.toInt = 2147483647 := by decide
  rw [narrow, if_neg]
  rintro ⟨_, small⟩
  omega

theorem readDigits_overflows {value digit : Nat} (small : value < 2 ^ 31) (below : digit < 10)
    (exceeds : 2 ^ 31 ≤ pushDigit value digit) (memory : Bytes) :
    readDigits (fun _ => none) (digitByte digit :: memory) (Int32.ofInt value) = none := by
  obtain ⟨visible, isDigit, digitValue⟩ := digitByte_digit below
  rw [pushDigit] at exceeds
  unfold readDigits
  rw [if_pos ⟨visible, isDigit⟩, ofInt_toInt small, digitValue]
  by_cases fits : value * 10 < 2 ^ 31
  · have scaled : narrow (fun _ => none) ((value : Int) * 10) =
        some (Int32.ofInt (value * 10 : Nat)) := by
      exact_mod_cast narrow_inside (fun _ => none) fits
    have summed : narrow (fun _ => none) ((Int32.ofInt (value * 10 : Nat)).toInt + (digit : Int)) =
        none := by
      rw [ofInt_toInt fits]
      exact_mod_cast narrow_outside exceeds
    simp only [scaled, summed, Option.bind_eq_bind, Option.bind_some, Option.bind_none]
  · have scaled : narrow (fun _ => none) ((value : Int) * 10) = none := by
      exact_mod_cast narrow_outside (by omega : 2 ^ 31 ≤ value * 10)
    simp only [scaled, Option.bind_eq_bind, Option.bind_none]

theorem readDigits_outside (text : Bytes) : ∀ value : Nat, value < 2 ^ 31 →
    2 ^ 31 ≤ ((text.takeWhile isDigit).map fun c => c.toNat - 48).foldl pushDigit value →
      readDigits (fun _ => none) (text ++ [0]) (Int32.ofInt value) = none := by
  induction text with
  | nil =>
      intro value small exceeds
      simp at exceeds
      omega
  | cons c rest ih =>
      intro value small exceeds
      cases digit : isDigit c with
      | false =>
          rw [List.takeWhile_cons_of_neg (by simp [digit])] at exceeds
          simp at exceeds
          omega
      | true =>
          obtain ⟨below, spelled⟩ := digit_digitByte digit
          rw [List.takeWhile_cons_of_pos digit, List.map_cons, List.foldl_cons] at exceeds
          rw [List.cons_append, ← spelled]
          by_cases fits : pushDigit value (c.toNat - 48) < 2 ^ 31
          · rw [readDigits_push _ below fits]
            exact ih _ fits exceeds
          · exact readDigits_overflows small below (by omega) _

theorem readDigits_iff {overflow : Overflow} {text : Bytes} {value : Int32}
    (read : readDigits overflow (text ++ [0]) 0 = some value) :
    (value.toInt = leadingValue text ∧
      readDigits (fun _ => none) (text ++ [0]) 0 = some value) ↔ leadingValue text < 2 ^ 31 := by
  constructor
  · rintro ⟨_, strict⟩
    by_contra exceeds
    have overflows := readDigits_outside text 0 (by decide) (Nat.le_of_not_lt exceeds)
    exact absurd (overflows.symm.trans strict) (by simp)
  · intro fits
    rw [readDigits_inside overflow fits] at read
    obtain rfl := Option.some.inj read
    exact ⟨ofInt_toInt fits, readDigits_inside _ fits⟩

/-- The value is the integer denoted, and nothing on the way to it was out of range. -/
def ReadExactly (reader : Overflow → Bytes → Option Int32) (text : Bytes) (value : Int32) : Prop :=
  value.toInt = denoted text ∧ reader (fun _ => none) (text ++ [0]) = some value

def Readable (signs : Bytes) (text : Bytes) : Prop :=
  denoted text = 0 ∨ ((∀ sign ∈ signs, text.head? ≠ some sign) ∧ (denoted text).natAbs < 2 ^ 31)

def readPidDigits (overflow : Overflow) (text : Bytes) : Option Int32 := readDigits overflow text 0

/-- Behind a sign that is not read no digit is, and the value is 0. -/
theorem refused_iff {reader : Overflow → Bytes → Option Int32} {signs rest : Bytes} {sign : UInt8}
    {value : Int32} (member : sign ∈ signs) (zero : value = 0)
    (strict : reader (fun _ => none) (sign :: rest ++ [0]) = some 0) :
    ReadExactly reader (sign :: rest) value ↔ Readable signs (sign :: rest) := by
  subst zero
  constructor
  · rintro ⟨same, _⟩
    exact Or.inl same.symm
  · rintro (nothing | ⟨unsigned, _⟩)
    · exact ⟨nothing.symm, strict⟩
    · exact absurd rfl (unsigned sign member)

theorem unsigned_iff {reader : Overflow → Bytes → Option Int32} {signs text : Bytes} {value : Int32}
    (unsigned : ∀ sign ∈ signs, text.head? ≠ some sign)
    (exact : ReadExactly reader text value ↔ (denoted text).natAbs < 2 ^ 31) :
    ReadExactly reader text value ↔ Readable signs text := by
  rw [exact]
  constructor
  · exact fun fits => Or.inr ⟨unsigned, fits⟩
  · rintro (nothing | ⟨_, fits⟩)
    · simp [nothing]
    · exact fits

theorem readPid_exactly {overflow : Overflow} {text : Bytes} {value : Int32}
    (read : readPidDigits overflow (text ++ [0]) = some value) :
    ReadExactly readPidDigits text value ↔ Readable [minus, plus] text := by
  by_cases signed : ∃ sign ∈ [minus, plus], text.head? = some sign
  · obtain ⟨sign, member, starts⟩ := signed
    obtain ⟨rest, rfl⟩ := List.head?_eq_some_iff.mp starts
    have notDigit : isDigit sign = false := by
      rcases List.mem_pair.mp member with rfl | rfl
      · decide
      · decide
    have stops : ∀ overflow, readPidDigits overflow (sign :: rest ++ [0]) = some 0 :=
      fun overflow => readDigits_stop overflow notDigit _ _
    exact refused_iff member (Option.some.inj (read.symm.trans (stops overflow))) (stops _)
  · have unsigned : ∀ sign ∈ [minus, plus], text.head? ≠ some sign :=
      fun sign member starts => signed ⟨sign, member, starts⟩
    have same := denoted_unsigned (unsigned minus (by simp)) (unsigned plus (by simp))
    refine unsigned_iff unsigned ?_
    rw [ReadExactly, same, Int.natAbs_natCast]
    exact readDigits_iff read

def readSigned (sign : Int) (overflow : Overflow) (text : Bytes) : Option Int32 := do
  narrow overflow ((← readDigits overflow text 0).toInt * sign)

theorem readSigned_iff {overflow : Overflow} {text : Bytes} {value : Int32} {sign : Int}
    (unit : sign = 1 ∨ sign = -1)
    (read : readSigned sign overflow (text ++ [0]) = some value) :
    (value.toInt = leadingValue text * sign ∧
      readSigned sign (fun _ => none) (text ++ [0]) = some value) ↔ leadingValue text < 2 ^ 31 := by
  constructor
  · rintro ⟨_, strict⟩
    by_contra exceeds
    have overflows := readDigits_outside text 0 (by decide) (Nat.le_of_not_lt exceeds)
    rw [readSigned, show (0 : Int32) = Int32.ofInt (0 : Nat) from rfl, overflows] at strict
    simp at strict
  · intro fits
    have lowest : Int32.minValue.toInt = -2147483648 := by decide
    have highest : Int32.maxValue.toInt = 2147483647 := by decide
    have inside : Int32.minValue.toInt ≤ leadingValue text * sign ∧
        leadingValue text * sign ≤ Int32.maxValue.toInt := by
      rcases unit with rfl | rfl
      · omega
      · omega
    have reads : ∀ overflow, readSigned sign overflow (text ++ [0]) =
        some (Int32.ofInt (leadingValue text * sign)) := by
      intro overflow
      rw [readSigned, readDigits_inside overflow fits]
      simp only [Option.bind_eq_bind, Option.bind_some, ofInt_toInt fits]
      exact if_pos inside
    rw [reads overflow] at read
    obtain rfl := Option.some.inj read
    exact ⟨Int32.toInt_ofInt_of_le (by omega) (by omega), reads _⟩

theorem readReturnCode_eq (overflow : Overflow) {text : Bytes} (unsigned : text.head? ≠ some minus) :
    readReturnCode overflow (text ++ [0]) = readSigned 1 overflow (text ++ [0]) := by
  cases text with
  | nil => rfl
  | cons c rest =>
      rw [List.cons_append, readReturnCode, if_neg (by simpa using unsigned)]
      rfl

theorem readReturnCode_exactly {overflow : Overflow} {text : Bytes} {value : Int32}
    (read : readReturnCode overflow (text ++ [0]) = some value) :
    ReadExactly readReturnCode text value ↔ Readable [plus] text := by
  by_cases isPlus : text.head? = some plus
  · obtain ⟨rest, rfl⟩ := List.head?_eq_some_iff.mp isPlus
    have stops : ∀ overflow, readReturnCode overflow (plus :: rest ++ [0]) = some 0 := by
      intro overflow
      rw [readReturnCode_eq overflow (by simp [plus, minus]), readSigned, List.cons_append,
        readDigits_stop overflow (by decide)]
      exact narrow_toInt overflow 0
    exact refused_iff (by simp) (Option.some.inj (read.symm.trans (stops overflow))) (stops _)
  · refine unsigned_iff (by simpa using isPlus) ?_
    by_cases isMinus : text.head? = some minus
    · obtain ⟨rest, rfl⟩ := List.head?_eq_some_iff.mp isMinus
      have reads : ∀ overflow, readReturnCode overflow (minus :: rest ++ [0]) =
          readSigned (-1) overflow (rest ++ [0]) := fun overflow => rfl
      rw [ReadExactly, reads, denoted_minus, Int.natAbs_neg, Int.natAbs_natCast,
        ← readSigned_iff (Or.inr rfl) (reads overflow ▸ read)]
      simp
    · rw [ReadExactly, readReturnCode_eq _ isMinus, denoted_unsigned isMinus isPlus,
        Int.natAbs_natCast, ← readSigned_iff (Or.inl rfl) (readReturnCode_eq overflow isMinus ▸ read)]
      simp

def numberText (key : String) (json : Bytes) : Bytes :=
  (textAfter (numberKey (ascii key)) json).getD []

/-- The decoded numbers are the integers that the numerals of the line denote, and no operation on
the way to them leaves the range of an `int`. -/
structure NumbersExact (json : Bytes) (ev : AuditEvent) : Prop where
  pid : ev.pid.toInt = denoted (numberText "pid" json)
  returnCode : ev.returnCode.toInt = denoted (numberText "return_code" json)
  inRange : auditEventFromJson (fun _ => none) json = some (0, ev)

structure NumbersReadable (json : Bytes) : Prop where
  pid : Readable [minus, plus] (numberText "pid" json)
  returnCode : Readable [plus] (numberText "return_code" json)

theorem acceptedNumbers_iff {overflow : Overflow} {json : Bytes} {ev : AuditEvent}
    (nulFree : (0 : UInt8) ∉ json) (accepted : auditEventFromJson overflow json = some (0, ev))
    (other : Overflow) : auditEventFromJson other json = some (0, ev) ↔
      readPidDigits other (numberText "pid" json ++ [0]) = some ev.pid ∧
        readReturnCode other (numberText "return_code" json ++ [0]) = some ev.returnCode := by
  have accepts := (auditEventFromJson_accepts nulFree).mp accepted
  obtain ⟨pidText, pidFound, _⟩ := accepts.pid
  obtain ⟨returnCodeText, returnCodeFound, _⟩ := accepts.returnCode
  rw [auditEventFromJson_accepts nulFree, numberText, numberText, pidFound, returnCodeFound,
    Option.getD_some, Option.getD_some]
  constructor
  · intro others
    obtain ⟨_, found, pidRead⟩ := others.pid
    obtain rfl := Option.some.inj (pidFound.symm.trans found)
    obtain ⟨_, found, returnCodeRead⟩ := others.returnCode
    obtain rfl := Option.some.inj (returnCodeFound.symm.trans found)
    exact ⟨pidRead, returnCodeRead⟩
  · rintro ⟨pidRead, returnCodeRead⟩
    exact { accepts with
      pid := ⟨_, pidFound, pidRead⟩
      returnCode := ⟨_, returnCodeFound, returnCodeRead⟩ }

theorem numbers_exact_iff {overflow : Overflow} {json : Bytes} {ev : AuditEvent}
    (nulFree : (0 : UInt8) ∉ json) (accepted : auditEventFromJson overflow json = some (0, ev)) :
    (NumbersExact json ev ↔ NumbersReadable json) ∧
      ∀ other otherEv, NumbersExact json ev → NumbersExact other otherEv →
        denoted (numberText "pid" other) ≠ denoted (numberText "pid" json) ∨
          denoted (numberText "return_code" other) ≠ denoted (numberText "return_code" json) →
        otherEv ≠ ev := by
  have strict := acceptedNumbers_iff nulFree accepted (fun _ => none)
  obtain ⟨pidRead, returnCodeRead⟩ := (acceptedNumbers_iff nulFree accepted overflow).mp accepted
  have pidExact := readPid_exactly pidRead
  have returnCodeExact := readReturnCode_exactly returnCodeRead
  constructor
  · constructor
    · rintro ⟨pid, returnCode, inRange⟩
      obtain ⟨pidStrict, returnCodeStrict⟩ := strict.mp inRange
      exact ⟨pidExact.mp ⟨pid, pidStrict⟩, returnCodeExact.mp ⟨returnCode, returnCodeStrict⟩⟩
    · rintro ⟨pidReadable, returnCodeReadable⟩
      obtain ⟨pid, pidStrict⟩ := pidExact.mpr pidReadable
      obtain ⟨returnCode, returnCodeStrict⟩ := returnCodeExact.mpr returnCodeReadable
      exact ⟨pid, returnCode, strict.mpr ⟨pidStrict, returnCodeStrict⟩⟩
  · rintro other otherEv exact otherExact different rfl
    rcases different with pid | returnCode
    · exact pid (otherExact.pid.symm.trans exact.pid)
    · exact returnCode (otherExact.returnCode.symm.trans exact.returnCode)

def signedPidLine : Bytes :=
  ascii "\x7b\"event_type\":\"execve\",\"command\":\"ls\",\"user\":\"root\",\"pid\":-5,\"cwd\":\"/\"," ++
  ascii "\"timestamp\":\"\",\"return_code\":0,\"hash\":\"\"\x7d"

def signedPidEvent : AuditEvent where
  eventType := .ofStr (ascii "execve")
  command := .ofStr (ascii "ls")
  user := .ofStr (ascii "root")
  pid := 0
  cwd := .ofStr (ascii "/")
  timestamp := .ofStr []
  returnCode := 0
  hash := .ofStr []

theorem signedPidLine_accepted (overflow : Overflow) :
    auditEventFromJson overflow signedPidLine = some (0, signedPidEvent) := by
  have split : signedPidLine.drop 34 = ascii "ls" ++ quote :: signedPidLine.drop 37 := by decide
  have command : ascii "ls" = (unescape (signedPidLine.drop 34)).take (commandMax - 1) := by
    rw [split, unescape_clean (by decide) (by decide), List.take_of_length_le (by decide)]
  have eventType : ascii "execve" = quotedField (eventTypeMax - 1) (signedPidLine.drop 15) := by
    decide
  have user : ascii "root" = quotedField (userMax - 1) (signedPidLine.drop 46) := by decide
  have cwd : ascii "/" = quotedField (cwdMax - 1) (signedPidLine.drop 68) := by decide
  have timestamp : [] = quotedField (timestampMax - 1) (signedPidLine.drop 84) := by decide
  have hash : [] = quotedField (hashHexSize - 1) (signedPidLine.drop 110) := by decide
  rw [auditEventFromJson_accepts (by decide)]
  exact {
    eventType := ⟨_, by decide, congrArg CharArray.ofStr eventType⟩
    command := ⟨_, by decide, congrArg CharArray.ofStr command⟩
    user := ⟨_, by decide, congrArg CharArray.ofStr user⟩
    pid := ⟨signedPidLine.drop 58, by decide, readDigits_stop _ (by decide) _ _⟩
    cwd := ⟨_, by decide, congrArg CharArray.ofStr cwd⟩
    timestamp := ⟨_, by decide, congrArg CharArray.ofStr timestamp⟩
    returnCode := ⟨signedPidLine.drop 100, by decide, rfl⟩
    hash := ⟨_, by decide, congrArg CharArray.ofStr hash⟩ }

theorem signedPidLine_exact_iff : (NumbersExact signedPidLine signedPidEvent ↔
    NumbersReadable signedPidLine) ∧ ∀ other otherEv, NumbersExact signedPidLine signedPidEvent →
      NumbersExact other otherEv →
        denoted (numberText "pid" other) ≠ denoted (numberText "pid" signedPidLine) ∨
          denoted (numberText "return_code" other) ≠
            denoted (numberText "return_code" signedPidLine) →
        otherEv ≠ signedPidEvent :=
  numbers_exact_iff (by decide) (signedPidLine_accepted fun _ => none)

theorem signedPid_misread : ¬∀ overflow json ev, (0 : UInt8) ∉ json →
    auditEventFromJson overflow json = some (0, ev) → NumbersExact json ev := by
  intro exact
  have numbers := exact (fun _ => none) signedPidLine signedPidEvent (by decide)
    (signedPidLine_accepted _)
  have minusFive : denoted (numberText "pid" signedPidLine) = -5 := by decide
  have decoded := numbers.pid
  rw [minusFive] at decoded
  exact absurd decoded (by decide)

end BlockchainAuditor
