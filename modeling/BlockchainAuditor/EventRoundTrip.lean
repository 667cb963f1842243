import BlockchainAuditor.EventEncoding

/-! Which events survive being written by `audit_event_to_json` and read back by
`audit_event_from_json`. -/

namespace BlockchainAuditor

open CStrings Decimal KeyedText

theorem quotedField_eq {limit : Nat} {text rest : Bytes} (fits : text.length ≤ limit) :
    quotedField limit (text ++ quote :: rest) = text.takeWhile (· ≠ quote) := by
  have stops : (text ++ quote :: rest).takeWhile (· ≠ quote) = text.takeWhile (· ≠ quote) := by
    clear fits
    induction text with
    | nil => simp
    | cons c text ih =>
        by_cases isQuote : c = quote
        · simp [isQuote]
        · simpa [isQuote] using ih
  have piece : text.takeWhile (· ≠ quote) <+: text := List.takeWhile_prefix _
  have shorter := piece.length_le
  rw [quotedField, stops, List.take_of_length_le (by omega)]

theorem takeWhile_plain {text : Bytes} :
    text.takeWhile (· ≠ quote) = text ↔ quote ∉ text := by
  rw [List.takeWhile_eq_self_iff]
  constructor
  · intro plain member
    simpa using plain quote member
  · exact ne_of_excluded

theorem unescape_clean {text rest : Bytes} (noQuote : quote ∉ text)
    (noBackslash : backslash ∉ text) : unescape (text ++ quote :: rest) = text := by
  induction text with
  | nil => simp
  | cons c text ih =>
      simp only [List.mem_cons, not_or] at noQuote noBackslash
      rw [List.cons_append, unescape_plain (Ne.symm noQuote.1) (Ne.symm noBackslash.1),
        ih noQuote.2 noBackslash.2]

/-- Unescaping halves a run of backslashes, so it never gives back a longer one. -/
theorem unescape_run {text rest : Bytes} : ∀ more : Nat,
    ¬List.replicate (more + 1) backslash ++ text <+: unescape (text ++ quote :: rest) := by
  induction text using unescape.induct with
  | case1 =>
      intro more starts
      simp [List.replicate_succ] at starts
  | case2 text =>
      intro more starts
      simp [List.replicate_succ] at starts
  | case3 =>
      intro more starts
      rw [List.singleton_append, unescape_escape, List.replicate_succ, List.cons_append] at starts
      exact absurd (List.cons_prefix_cons.mp starts).1 (by decide)
  | case4 next after _ ih =>
      intro more starts
      rw [List.cons_append, List.cons_append, unescape_escape, List.replicate_succ,
        List.cons_append] at starts
      obtain ⟨same, starts⟩ := List.cons_prefix_cons.mp starts
      subst same
      refine ih (more + 1) ?_
      simpa [← List.replicate_append_replicate] using starts
  | case5 c text notQuote notBackslash _ =>
      intro more starts
      rw [List.cons_append, unescape_plain notQuote notBackslash, List.replicate_succ,
        List.cons_append] at starts
      exact notBackslash (List.cons_prefix_cons.mp starts).1.symm

theorem unescape_keeps {text rest : Bytes} (kept : text <+: unescape (text ++ quote :: rest)) :
    quote ∉ text ∧ backslash ∉ text := by
  induction text with
  | nil => simp
  | cons c text ih =>
      by_cases isQuote : c = quote
      · subst isQuote
        simp at kept
      · by_cases isBackslash : c = backslash
        · subst isBackslash
          exfalso
          cases text with
          | nil =>
              rw [List.singleton_append, unescape_escape] at kept
              exact absurd (List.cons_prefix_cons.mp kept).1 (by decide)
          | cons next text =>
              rw [List.cons_append, List.cons_append, unescape_escape] at kept
              obtain ⟨same, starts⟩ := List.cons_prefix_cons.mp kept
              subst same
              exact unescape_run 0 (by simpa using starts)
        · rw [List.cons_append, unescape_plain isQuote isBackslash] at kept
          obtain ⟨noQuote, noBackslash⟩ := ih (List.cons_prefix_cons.mp kept).2
          simp [noQuote, noBackslash, Ne.symm isQuote, Ne.symm isBackslash]

theorem narrow_inside (overflow : Overflow) {number : Nat} (fits : number < 2 ^ 31) :
    narrow overflow number = some (Int32.ofInt number) := by
  refine if_pos ⟨?_, ?_⟩
  · have lowest : Int32.minValue.toInt = -2147483648 := by decide
    omega
  · have highest : Int32.maxValue.toInt = 2147483647 := by decide
    omega

theorem ofInt_toInt {number : Nat} (fits : number < 2 ^ 31) :
    (Int32.ofInt number).toInt = number :=
  Int32.toInt_ofInt_of_le (by omega) (by omega)

theorem digitByte_digit {digit : Nat} (small : digit < 10) :
    digitByte digit ≠ 0 ∧ isDigit (digitByte digit) = true ∧
      ((digitByte digit).toNat - 48 : Int) = digit := by
  interval_cases digit <;> decide

theorem digitBytes_values {digits : List Nat} (small : ∀ digit ∈ digits, digit < 10) :
    (digits.map digitByte).map (fun byte => byte.toNat - 48) = digits := by
  rw [List.map_map]
  refine (List.map_congr_left fun digit member => ?_).trans (List.map_id _)
  have value := (digitByte_digit (small digit member)).2.2
  simp only [Function.comp_apply, id_eq]
  omega

theorem decimalText_digits (number : Nat) : ((decimalDigits number).map digitByte).map
    (fun byte => byte.toNat - 48) = decimalDigits number :=
  digitBytes_values fun _ => decimalDigits_lt

theorem readDigits_stop (overflow : Overflow) {c : UInt8} (notDigit : isDigit c = false)
    (memory : Bytes) (value : Int32) : readDigits overflow (c :: memory) value = some value := by
  simp [readDigits, notDigit]

theorem readDigits_push (overflow : Overflow) {value digit : Nat} (small : digit < 10)
    (fits : pushDigit value digit < 2 ^ 31) (memory : Bytes) :
    readDigits overflow (digitByte digit :: memory) (Int32.ofInt value) =
      readDigits overflow memory (Int32.ofInt (pushDigit value digit)) := by
  obtain ⟨visible, isDigit, digitValue⟩ := digitByte_digit small
  rw [pushDigit] at fits
  have scaled : narrow overflow ((Int32.ofInt value).toInt * 10) =
      some (Int32.ofInt (value * 10 : Nat)) := by
    rw [ofInt_toInt (by omega), ← narrow_inside overflow (by omega)]
    simp
  have summed : narrow overflow
      ((Int32.ofInt (value * 10 : Nat)).toInt + ((digitByte digit).toNat - 48 : Int)) =
        some (Int32.ofInt (pushDigit value digit : Nat)) := by
    rw [ofInt_toInt (by omega), digitValue, ← narrow_inside overflow (by rw [pushDigit]; omega)]
    simp [pushDigit]
  conv => lhs; unfold readDigits
  rw [if_pos ⟨visible, isDigit⟩, scaled]
  simp only [Option.bind_eq_bind, Option.bind_some]
  rw [summed]
  rfl

theorem le_foldl_pushDigit (value : Nat) (digits : List Nat) :
    value ≤ digits.foldl pushDigit value := by
  rw [foldl_pushDigit]
  have positive : 0 < 10 ^ digits.length := by positivity
  nlinarith

theorem readDigits_digits (overflow : Overflow) (digits : List Nat) (memory : Bytes) :
    ∀ value : Nat, (∀ digit ∈ digits, digit < 10) → digits.foldl pushDigit value < 2 ^ 31 →
      readDigits overflow (digits.map digitByte ++ memory) (Int32.ofInt value) =
        readDigits overflow memory (Int32.ofInt (digits.foldl pushDigit value : Nat)) := by
  induction digits with
  | nil =>
      intro value _ _
      rfl
  | cons digit rest ih =>
      intro value small fits
      have pushed := le_foldl_pushDigit (pushDigit value digit) rest
      rw [List.foldl_cons] at fits ⊢
      rw [List.map_cons, List.cons_append, readDigits_push overflow (small digit (by simp))
        (by omega)]
      exact ih _ (fun other member => small other (by simp [member])) fits

theorem readDigits_decimal (overflow : Overflow) {number : Nat} (fits : number < 2 ^ 31)
    {c : UInt8} (notDigit : isDigit c = false) (memory : Bytes) :
    readDigits overflow ((decimalDigits number).map digitByte ++ c :: memory) 0 =
      some (Int32.ofInt number) := by
  have value := digitsValue_decimalDigits number
  rw [digitsValue] at value
  have read := readDigits_digits overflow _ (c :: memory) 0
    (fun _ => decimalDigits_lt) (by rw [value]; exact fits)
  rw [value, readDigits_stop overflow notDigit] at read
  exact read

theorem readPid_negative (overflow : Overflow) {value : Int} (negative : value < 0)
    (memory : Bytes) : readDigits overflow (formatInt value ++ memory) 0 = some 0 := by
  rw [formatInt, if_pos negative, List.cons_append]
  exact readDigits_stop overflow (by decide) _ 0

theorem readPid_formatInt (overflow : Overflow) {value : Int32} (positive : 0 ≤ value.toInt)
    {c : UInt8} (notDigit : isDigit c = false) (memory : Bytes) :
    readDigits overflow (formatInt value.toInt ++ c :: memory) 0 = some value := by
  have upper := Int32.toInt_lt value
  rw [formatInt, if_neg (by omega),
    readDigits_decimal overflow (by omega) notDigit, Int.natAbs_of_nonneg positive,
    Int32.ofInt_toInt]

theorem narrow_toInt (overflow : Overflow) (value : Int32) :
    narrow overflow value.toInt = some value := by
  rw [narrow, if_pos ⟨Int32.le_toInt value, Int32.toInt_le value⟩, Int32.ofInt_toInt]

theorem readReturnCode_formatInt (overflow : Overflow) {value : Int32}
    (notLeast : value ≠ Int32.minValue) {c : UInt8} (notDigit : isDigit c = false)
    (memory : Bytes) :
    readReturnCode overflow (formatInt value.toInt ++ c :: memory) = some value := by
  have lower := Int32.le_toInt value
  have upper := Int32.toInt_lt value
  have small : value.toInt.natAbs < 2 ^ 31 := by
    have notLeastInt : value.toInt ≠ -2147483648 := by
      intro least
      exact notLeast (Int32.toInt_inj.mp (by rw [least]; decide))
    omega
  have digits := readDigits_decimal overflow small notDigit memory
  unfold formatInt
  by_cases negative : value.toInt < 0
  · have signed : (Int32.ofInt value.toInt.natAbs).toInt * -1 = value.toInt := by
      rw [ofInt_toInt small]
      omega
    simp only [if_pos negative, List.cons_append, readReturnCode, if_true, digits,
      Option.bind_eq_bind, Option.bind_some, signed, narrow_toInt]
  · have unsigned : (Int32.ofInt value.toInt.natAbs).toInt * 1 = value.toInt := by
      rw [ofInt_toInt small]
      omega
    obtain ⟨first, rest, split⟩ :=
      List.exists_cons_of_ne_nil (decimalDigits_ne_nil value.toInt.natAbs)
    have notSign : digitByte first ≠ minus := by
      have member : first ∈ decimalDigits value.toInt.natAbs := by simp [split]
      have digit := digitByte_digit (decimalDigits_lt member)
      intro sign
      rw [sign] at digit
      exact absurd digit.2.1 (by decide)
    rw [split, List.map_cons, List.cons_append] at digits
    simp only [if_neg negative, split, List.map_cons, List.cons_append, readReturnCode,
      if_neg notSign, digits, Option.bind_eq_bind, Option.bind_some, unsigned, narrow_toInt]

/-- The digits of the least `int` already overflow before the sign is applied. -/
theorem readReturnCode_least (memory : Bytes) :
    readReturnCode (fun _ => none) (formatInt Int32.minValue.toInt ++ memory) = none := by
  have front := readDigits_digits (fun _ => none) [2, 1, 4, 7, 4, 8, 3, 6, 4]
    (digitByte 8 :: memory) 0 (by decide) (by decide)
  have last : readDigits (fun _ => none) (digitByte 8 :: memory) (Int32.ofInt 214748364) = none := by
    unfold readDigits
    rw [if_pos (by decide)]
    have scaled : narrow (fun _ => none) ((Int32.ofInt 214748364).toInt * 10) =
      some (Int32.ofInt 2147483640) := by decide
    have summed : narrow (fun _ => none)
      ((Int32.ofInt 2147483640).toInt + ((digitByte 8).toNat - 48 : Int)) = none := by decide
    simp only [scaled, summed, Option.bind_eq_bind, Option.bind_some, Option.bind_none]
  have digits : formatInt Int32.minValue.toInt =
      minus :: ([2, 1, 4, 7, 4, 8, 3, 6, 4].map digitByte ++ [digitByte 8]) := by decide
  have overflows : readDigits (fun _ => none)
      ([2, 1, 4, 7, 4, 8, 3, 6, 4].map digitByte ++ digitByte 8 :: memory) 0 = none :=
    front.trans last
  rw [digits, List.cons_append, readReturnCode, if_pos rfl, List.append_assoc,
    List.singleton_append, overflows]
  rfl

structure SameContent (left right : AuditEvent) : Prop where
  eventType : left.eventType.str = right.eventType.str
  command : left.command.str = right.command.str
  user : left.user.str = right.user.str
  pid : left.pid = right.pid
  cwd : left.cwd.str = right.cwd.str
  timestamp : left.timestamp.str = right.timestamp.str
  returnCode : left.returnCode = right.returnCode

structure SameFields (left right : AuditEvent) : Prop extends SameContent left right where
  hash : left.hash.str = right.hash.str

/-- What the text format carries: no quote in any string, no backslash in the command,
no negative `pid`, and a return code whose digits fit an `int`. -/
structure Carried (ev : AuditEvent) : Prop where
  eventType : quote ∉ ev.eventType.str
  commandQuote : quote ∉ ev.command.str
  commandBackslash : backslash ∉ ev.command.str
  user : quote ∉ ev.user.str
  pid : 0 ≤ ev.pid.toInt
  cwd : quote ∉ ev.cwd.str
  timestamp : quote ∉ ev.timestamp.str
  returnCode : ev.returnCode ≠ Int32.minValue
  hash : quote ∉ ev.hash.str

theorem quoted_str {size : Nat} {array : CharArray size} (terminated : array.Terminated)
    (rest : Bytes) :
    (.ofStr (quotedField (size - 1) (array.str ++ quote :: rest)) : CharArray size).str =
      array.str.takeWhile (· ≠ quote) := by
  have shorter := CharArray.str_length_lt terminated
  have piece : array.str.takeWhile (· ≠ quote) <+: array.str := List.takeWhile_prefix _
  rw [quotedField_eq (by omega), CharArray.ofStr_str]
  · intro member
    exact array.str_nulFree (piece.subset member)
  · have := piece.length_le
    omega

section Fields

variable {ev : AuditEvent} {size : Nat} {array : CharArray size} {key : Bytes} (index : Nat)

theorem string_carried (terminated : array.Terminated)
    (here : (recordItems ev)[index]? = some (key, .quoted array.str))
    (clean : CleanBefore ev index) (plain : quote ∉ array.str) :
    ∃ rest, textAfter (stringKey key) (recordText (recordItems ev)) = some rest ∧
      (.ofStr array.str : CharArray size) = .ofStr (quotedField (size - 1) rest) := by
  have shorter := CharArray.str_length_lt terminated
  refine ⟨_, textAfter_string index here clean, ?_⟩
  rw [quotedField_eq (by omega), takeWhile_plain.mpr plain]

theorem string_necessary (terminated : array.Terminated)
    (here : (recordItems ev)[index]? = some (key, .quoted array.str))
    (clean : CleanBefore ev index) {read : CharArray size} (same : read.str = array.str)
    (accepted : ∃ rest, textAfter (stringKey key) (recordText (recordItems ev)) = some rest ∧
      read = .ofStr (quotedField (size - 1) rest)) : quote ∉ array.str := by
  obtain ⟨rest, found, rfl⟩ := accepted
  rw [textAfter_string index here clean, Option.some.injEq] at found
  subst found
  rw [quoted_str terminated] at same
  exact takeWhile_plain.mp same

end Fields

theorem carried_cleanBefore {ev : AuditEvent} (carried : Carried ev) (index : Nat) :
    CleanBefore ev index := by
  intro item member
  have inside := List.mem_of_mem_take member
  refine ⟨(recordItems_searchKey inside).quote, ?_⟩
  have number := fun value => formatInt_excludes quote (by decide) (by decide) value
  simp only [recordItems, List.mem_cons, List.not_mem_nil, or_false] at inside
  rcases inside with rfl | rfl | rfl | rfl | rfl | rfl | rfl | rfl
  · exact carried.eventType
  · exact carried.commandQuote
  · exact carried.user
  · exact number _
  · exact carried.cwd
  · exact carried.timestamp
  · exact number _
  · exact carried.hash

def AuditEvent.cleared (ev : AuditEvent) : AuditEvent where
  eventType := .ofStr ev.eventType.str
  command := .ofStr ev.command.str
  user := .ofStr ev.user.str
  pid := ev.pid
  cwd := .ofStr ev.cwd.str
  timestamp := .ofStr ev.timestamp.str
  returnCode := ev.returnCode
  hash := .ofStr ev.hash.str

theorem cleared_str {size : Nat} {array : CharArray size} (terminated : array.Terminated) :
    (.ofStr array.str : CharArray size).str = array.str :=
  CharArray.ofStr_str array.str_nulFree (CharArray.str_length_lt terminated).le

theorem cleared_sameFields {ev : AuditEvent} (terminated : ev.Terminated) :
    SameFields ev.cleared ev where
  eventType := cleared_str terminated.eventType
  command := cleared_str terminated.command
  user := cleared_str terminated.user
  pid := rfl
  cwd := cleared_str terminated.cwd
  timestamp := cleared_str terminated.timestamp
  returnCode := rfl
  hash := cleared_str terminated.hash

theorem carried_accepts {ev : AuditEvent} (terminated : ev.Terminated) (carried : Carried ev)
    (overflow : Overflow) : Accepts overflow (recordText (recordItems ev)) ev.cleared where
  eventType := string_carried 0 terminated.eventType rfl
    (carried_cleanBefore carried _) carried.eventType
  command := by
    refine ⟨_, textAfter_string 1 rfl (carried_cleanBefore carried _), ?_⟩
    rw [unescape_clean carried.commandQuote carried.commandBackslash, List.take_of_length_le
      (Nat.le_sub_one_of_lt (CharArray.str_length_lt terminated.command))]
    rfl
  user := string_carried 2 terminated.user rfl
    (carried_cleanBefore carried _) carried.user
  pid := by
    refine ⟨_, textAfter_number 3 rfl (carried_cleanBefore carried _), ?_⟩
    rw [List.append_assoc]
    exact readPid_formatInt overflow carried.pid (by decide : isDigit comma = false) _
  cwd := string_carried 4 terminated.cwd rfl
    (carried_cleanBefore carried _) carried.cwd
  timestamp := string_carried 5 terminated.timestamp rfl
    (carried_cleanBefore carried _) carried.timestamp
  returnCode := by
    refine ⟨_, textAfter_number 6 rfl (carried_cleanBefore carried _), ?_⟩
    rw [List.append_assoc]
    exact readReturnCode_formatInt overflow carried.returnCode (by decide : isDigit comma = false) _
  hash := string_carried 7 terminated.hash rfl
    (carried_cleanBefore carried _) carried.hash

theorem accepts_carried {ev read : AuditEvent} (terminated : ev.Terminated)
    (accepts : Accepts (fun _ => none) (recordText (recordItems ev)) read)
    (same : SameFields read ev) : Carried ev := by
  have number := fun value => formatInt_excludes quote (by decide) (by decide) value
  have atEventType : CleanBefore ev 0 := by simp [CleanBefore]
  have eventType := string_necessary 0 terminated.eventType rfl atEventType
    same.eventType accepts.eventType
  have atCommand := cleanBefore_next 0 atEventType rfl eventType
  have command : quote ∉ ev.command.str ∧ backslash ∉ ev.command.str := by
    obtain ⟨rest, found, value⟩ := accepts.command
    rw [textAfter_string 1 rfl atCommand, Option.some.injEq] at found
    subst found
    have written : read.command.str <+: (unescape
        (ev.command.str ++ quote :: tailText ((recordItems ev).drop 2))).take (commandMax - 1) := by
      rw [value]
      exact CharArray.ofStr_str_prefix (by simp)
    rw [same.command] at written
    exact unescape_keeps (written.trans (List.take_prefix _ _))
  have atUser := cleanBefore_next 1 atCommand rfl command.1
  have user := string_necessary 2 terminated.user rfl atUser same.user accepts.user
  have atPid := cleanBefore_next 2 atUser rfl user
  have pid : 0 ≤ ev.pid.toInt := by
    by_contra negative
    obtain ⟨rest, found, value⟩ := accepts.pid
    rw [textAfter_number 3 rfl atPid, Option.some.injEq] at found
    subst found
    rw [List.append_assoc, readPid_negative _ (by omega), Option.some.injEq, same.pid] at value
    rw [← value] at negative
    exact negative (by decide)
  have atCwd := cleanBefore_next 3 atPid rfl (number _)
  have cwd := string_necessary 4 terminated.cwd rfl atCwd same.cwd accepts.cwd
  have atTimestamp := cleanBefore_next 4 atCwd rfl cwd
  have timestamp := string_necessary 5 terminated.timestamp rfl atTimestamp
    same.timestamp accepts.timestamp
  have atReturnCode := cleanBefore_next 5 atTimestamp rfl timestamp
  have returnCode : ev.returnCode ≠ Int32.minValue := by
    intro least
    obtain ⟨rest, found, value⟩ := accepts.returnCode
    rw [textAfter_number 6 rfl atReturnCode, Option.some.injEq] at found
    subst found
    rw [least, List.append_assoc, readReturnCode_least] at value
    simp at value
  have atHash := cleanBefore_next 6 atReturnCode rfl (number _)
  have hash := string_necessary 7 terminated.hash rfl atHash same.hash accepts.hash
  exact ⟨eventType, command.1, command.2, user, pid, cwd, timestamp, returnCode, hash⟩

theorem auditEventRoundTrip_iff {ev : AuditEvent} (terminated : ev.Terminated) :
    (∀ overflow, ∃ read,
      auditEventFromJson overflow (auditEventToJson ev jsonEventMax) = some (0, read) ∧
        SameFields read ev) ↔ Carried ev := by
  rw [auditEventToJson_eq terminated]
  constructor
  · intro roundTrips
    obtain ⟨read, returned, same⟩ := roundTrips fun _ => none
    exact accepts_carried terminated
      ((auditEventFromJson_accepts (recordItems_nulFree ev)).mp returned) same
  · intro carried overflow
    exact ⟨ev.cleared, (auditEventFromJson_accepts (recordItems_nulFree ev)).mpr
      (carried_accepts terminated carried overflow), cleared_sameFields terminated⟩

theorem execveEvent_carried {command : Bytes} (fits : command.length < commandMax)
    (noQuote : quote ∉ command) (noBackslash : backslash ∉ command) :
    Carried (execveEvent command) where
  eventType := CharArray.ofStr_excludes (by decide) (by decide)
  commandQuote := CharArray.ofStr_excludes fits.le noQuote
  commandBackslash := CharArray.ofStr_excludes fits.le noBackslash
  user := CharArray.ofStr_excludes (by decide) (by decide)
  pid := (by decide : 0 ≤ (9999 : Int32).toInt)
  cwd := CharArray.ofStr_excludes (by decide) (by decide)
  timestamp := CharArray.ofStr_excludes (by decide) (by decide)
  returnCode := (by decide : (0 : Int32) ≠ Int32.minValue)
  hash := CharArray.ofStr_excludes (by decide) (by decide)

theorem plainCommand_roundTrips : ∃ read,
    auditEventFromJson (fun _ => none)
        (auditEventToJson (execveEvent (ascii "ls -la /tmp")) jsonEventMax) = some (0, read) ∧
      SameFields read (execveEvent (ascii "ls -la /tmp")) :=
  (auditEventRoundTrip_iff (execveEvent_terminated (by decide))).mpr
    (execveEvent_carried (by decide) (by decide) (by decide)) fun _ => none

theorem quotedCommand_lost : ¬∀ overflow, ∃ read,
    auditEventFromJson overflow
        (auditEventToJson (execveEvent (ascii "sh -c \"id\"")) jsonEventMax) = some (0, read) ∧
      SameFields read (execveEvent (ascii "sh -c \"id\"")) := by
  intro roundTrips
  obtain ⟨read, returned, same⟩ := roundTrips fun _ => none
  have terminated : (execveEvent (ascii "sh -c \"id\"")).Terminated :=
    execveEvent_terminated (by decide)
  rw [auditEventToJson_eq terminated] at returned
  have carried := accepts_carried terminated
    ((auditEventFromJson_accepts (recordItems_nulFree _)).mp returned) same
  refine carried.commandQuote ?_
  rw [execveEvent, CharArray.ofStr_str (by decide) (by decide)]
  decide

end BlockchainAuditor
