import BlockchainAuditor.EventDelivery
import BlockchainAuditor.EventEncoding
import BlockchainAuditor.Gateway
import BlockchainAuditor.Library.JsonRecord

/-! The body of `http_client_post_event` as the JSON middleware of the gateway reads it. -/

namespace BlockchainAuditor

open CStrings Decimal JavaScript
open KeyedText (recordText Item)

namespace AuditEvent

def strings (ev : AuditEvent) : List Bytes :=
  [ev.eventType.str, ev.command.str, ev.user.str, ev.cwd.str, ev.timestamp.str, ev.hash.str]

def ValidUtf8 (ev : AuditEvent) : Prop := ∀ text ∈ ev.strings, JavaScript.ValidUtf8 text

end AuditEvent

structure Carries (value : Json) (ev : AuditEvent) : Prop where
  eventType : value.get "event_type" = some (some (.string (decodeUtf8 ev.eventType.str)))
  command : value.get "command" = some (some (.string (decodeUtf8 ev.command.str)))
  user : value.get "user" = some (some (.string (decodeUtf8 ev.user.str)))
  pid : value.get "pid" = some (some (.number (.finite ev.pid.toInt)))
  cwd : value.get "cwd" = some (some (.string (decodeUtf8 ev.cwd.str)))
  timestamp : value.get "timestamp" = some (some (.string (decodeUtf8 ev.timestamp.str)))
  returnCode : value.get "return_code" = some (some (.number (.finite ev.returnCode.toInt)))
  hash : value.get "hash" = some (some (.string (decodeUtf8 ev.hash.str)))

def carriedMembers (ev : AuditEvent) : List Member :=
  [(units "event_type", .string (decodeUtf8 ev.eventType.str)),
   (units "command", .string (decodeUtf8 ev.command.str)),
   (units "user", .string (decodeUtf8 ev.user.str)),
   (units "pid", .number (.finite ev.pid.toInt)),
   (units "cwd", .string (decodeUtf8 ev.cwd.str)),
   (units "timestamp", .string (decodeUtf8 ev.timestamp.str)),
   (units "return_code", .number (.finite ev.returnCode.toInt)),
   (units "hash", .string (decodeUtf8 ev.hash.str))]

theorem get_object {value content : Json} {name : String}
    (got : value.get name = some (some content)) :
    ∃ members, value = .object members ∧ members.lookup (units name) = some content := by
  cases value with
  | object members => exact ⟨members, rfl, Option.some.inj got⟩
  | null | bool _ | number _ | string _ | array _ => simp [Json.get] at got

theorem carriedMembers_keys (ev : AuditEvent) :
    ((carriedMembers ev).map Prod.fst).Nodup := by
  simp only [carriedMembers, List.map_cons, List.map_nil]
  decide

theorem carries_iff {value : Json} {ev : AuditEvent} :
    Carries value ev ↔ ∃ members, value = .object members ∧
      ∀ member ∈ carriedMembers ev, members.lookup member.1 = some member.2 := by
  constructor
  · intro carries
    obtain ⟨members, rfl, _⟩ := get_object carries.eventType
    refine ⟨members, rfl, ?_⟩
    simp only [carriedMembers, List.forall_mem_cons, List.not_mem_nil, false_implies, implies_true,
      and_true]
    exact ⟨Option.some.inj carries.eventType, Option.some.inj carries.command,
      Option.some.inj carries.user, Option.some.inj carries.pid, Option.some.inj carries.cwd,
      Option.some.inj carries.timestamp, Option.some.inj carries.returnCode,
      Option.some.inj carries.hash⟩
  · rintro ⟨members, rfl, present⟩
    simp only [carriedMembers, List.forall_mem_cons, List.not_mem_nil, false_implies, implies_true,
      and_true] at present
    obtain ⟨eventType, command, user, pid, cwd, timestamp, returnCode, hash⟩ := present
    exact ⟨congrArg some eventType, congrArg some command, congrArg some user, congrArg some pid,
      congrArg some cwd, congrArg some timestamp, congrArg some returnCode, congrArg some hash⟩

theorem carries_members (ev : AuditEvent) : Carries (.object (carriedMembers ev)) ev := by
  refine carries_iff.mpr ⟨_, rfl, fun member listed => ?_⟩
  obtain ⟨before, after, split⟩ := List.append_of_mem listed
  have distinct := carriedMembers_keys ev
  rw [split, List.map_append, List.nodup_append] at distinct
  refine List.lookup_eq_some_iff.mpr ⟨before, after, split, fun other earlier => ?_⟩
  have different := distinct.2.2 other.1 (List.mem_map_of_mem earlier) member.1 (by simp)
  simpa using Ne.symm different

theorem formatInt_ascii (value : Int) : isAscii (formatInt value) = true := by
  refine isAscii_iff.mpr fun byte member => ?_
  rcases formatInt_isNumeral member with rfl | digit
  · decide
  · simp only [isDigit, Bool.and_eq_true, decide_eq_true_eq, UInt8.le_iff_toNat_le,
      UInt8.reduceToNat] at digit
    rw [UInt8.lt_iff_toNat_lt]
    exact lt_of_le_of_lt digit.2 (by decide)

theorem digitByte_toUInt16 {digit : Nat} (small : digit < 10) :
    (digitByte digit).toUInt16 = digitUnit digit := by
  apply UInt16.toNat_inj.mp
  simp only [digitByte, digitUnit, UInt8.toNat_toUInt16, Nat.toUInt8_eq, Nat.toUInt16_eq,
    UInt8.toNat_ofNat', UInt16.toNat_ofNat']
  omega

theorem decodeUtf8_formatInt (value : Int) : decodeUtf8 (formatInt value) = intUnits value := by
  have ascii := decodeUtf8_ascii (formatInt_ascii value) []
  have digits : ((decimalDigits value.natAbs).map digitByte).map UInt8.toUInt16 =
      digitUnits (decimalDigits value.natAbs) := by
    rw [List.map_map]
    exact List.map_congr_left fun digit member => digitByte_toUInt16 (decimalDigits_lt member)
  have ended : decodeUtf8 [] = [] := rfl
  rw [List.append_nil, ended, List.append_nil] at ascii
  rw [ascii, formatInt, intUnits]
  split
  · rw [List.map_cons, digits]
    rfl
  · rw [digits]

theorem recordItems_encoded {ev : AuditEvent} (valid : ev.ValidUtf8) :
    ∀ item ∈ recordItems ev, Encoded item := by
  have keys : ∀ key ∈ (recordItems ev).map Prod.fst, isAscii key = true := by
    simp only [recordItems, List.map_cons, List.map_nil]
    decide
  have number := fun value : Int32 => validUtf8_ascii (formatInt_ascii value.toInt)
  intro item member
  refine ⟨validUtf8_ascii (keys item.1 (List.mem_map_of_mem member)), ?_⟩
  simp only [AuditEvent.ValidUtf8, AuditEvent.strings, List.forall_mem_cons] at valid
  obtain ⟨eventType, command, user, cwd, timestamp, hash, _⟩ := valid
  simp only [recordItems, List.mem_cons, List.not_mem_nil, or_false] at member
  rcases member with rfl | rfl | rfl | rfl | rfl | rfl | rfl | rfl
  · exact eventType
  · exact command
  · exact user
  · exact number ev.pid
  · exact cwd
  · exact timestamp
  · exact number ev.returnCode
  · exact hash

def mustEscape (byte : UInt8) : Bool := byte = 34 || byte = 92 || byte < 32

def AuditEvent.Plain (ev : AuditEvent) : Prop :=
  ∀ text ∈ ev.strings, text.any mustEscape = false

theorem needsEscape_toUInt16 (byte : UInt8) : needsEscape byte.toUInt16 = mustEscape byte := by
  simp only [needsEscape, mustEscape, JsonUnit.quote, JsonUnit.backslash, UInt16.lt_iff_toNat_lt,
    UInt8.lt_iff_toNat_lt, ← UInt16.toNat_inj, ← UInt8.toNat_inj, UInt8.toNat_toUInt16,
    UInt16.reduceToNat, UInt8.reduceToNat]

theorem plain_iff {text : Bytes} (valid : JavaScript.ValidUtf8 text) :
    text.any mustEscape = false ↔ ∀ unit ∈ decodeUtf8 text, needsEscape unit = false := by
  simp only [List.any_eq_false, Bool.not_eq_true]
  constructor
  · intro plain unit member
    by_cases ascii : unit < 128
    · have bound : unit.toNat < 128 := UInt16.lt_iff_toNat_lt.mp ascii
      have same : unit.toUInt8.toUInt16 = unit := by
        apply UInt16.toNat_inj.mp
        rw [UInt8.toNat_toUInt16, UInt16.toNat_toUInt8]
        omega
      have small : unit.toUInt8 < 128 := by
        rw [UInt8.lt_iff_toNat_lt, UInt16.toNat_toUInt8]
        simp only [UInt8.reduceToNat]
        omega
      rw [← same] at member ⊢
      rw [needsEscape_toUInt16]
      exact plain _ ((mem_decodeUtf8 valid small).mp member)
    · rw [UInt16.lt_iff_toNat_lt] at ascii
      simp only [needsEscape, JsonUnit.quote, JsonUnit.backslash, UInt16.lt_iff_toNat_lt,
        ← UInt16.toNat_inj, UInt16.reduceToNat, Bool.or_eq_false_iff, decide_eq_false_iff_not] at ascii ⊢
      omega
  · intro plain byte member
    by_cases ascii : byte < 128
    · rw [← needsEscape_toUInt16]
      exact plain _ ((mem_decodeUtf8 valid ascii).mpr member)
    · rw [UInt8.lt_iff_toNat_lt] at ascii
      simp only [mustEscape, UInt8.lt_iff_toNat_lt, ← UInt8.toNat_inj, UInt8.reduceToNat,
        Bool.or_eq_false_iff, decide_eq_false_iff_not] at ascii ⊢
      omega

def recordKeys : List String :=
  ["event_type", "command", "user", "pid", "cwd", "timestamp", "return_code", "hash"]

structure MemberName (key : String) : Prop where
  bytes : isAscii (ascii key) = true
  decoded : decodeUtf8 (ascii key) = units key
  plain : (units key).any needsEscape = false
  name : arrayIndex (units key) = none

theorem recordKeys_names : ∀ key ∈ recordKeys, MemberName key := by
  intro key member
  simp only [recordKeys, List.mem_cons, List.not_mem_nil, or_false] at member
  rcases member with rfl | rfl | rfl | rfl | rfl | rfl | rfl | rfl
  all_goals exact ⟨by decide, by decide +kernel, by decide, by decide +kernel⟩

theorem readsAs_string {key : String} (name : MemberName key) {text : Bytes}
    (valid : JavaScript.ValidUtf8 text) (plain : text.any mustEscape = false) :
    ReadsAs (ascii key, .quoted text) (units key, .string (decodeUtf8 text)) where
  encoded := ⟨validUtf8_ascii name.bytes, valid⟩
  key := name.decoded
  plain := by simpa using name.plain
  name := name.name
  value := reads_string ((plain_iff valid).mp plain)

theorem readsAs_number {key : String} (name : MemberName key) (value : Int32) :
    ReadsAs (ascii key, .bare (formatInt value.toInt))
      (units key, .number (.finite value.toInt)) where
  encoded := ⟨validUtf8_ascii name.bytes, validUtf8_ascii (formatInt_ascii value.toInt)⟩
  key := name.decoded
  plain := by simpa using name.plain
  name := name.name
  value := by
    have small := int32_natAbs_le value
    rw [valueUnits, decodeUtf8_formatInt]
    exact reads_int (by omega)

theorem recordItems_read {ev : AuditEvent} (valid : ev.ValidUtf8) (plain : ev.Plain) :
    List.Forall₂ ReadsAs (recordItems ev) (carriedMembers ev) := by
  have names := recordKeys_names
  simp only [recordKeys, List.forall_mem_cons] at names
  obtain ⟨eventType, command, user, pid, cwd, timestamp, returnCode, hash, _⟩ := names
  simp only [AuditEvent.ValidUtf8, AuditEvent.Plain, AuditEvent.strings,
    List.forall_mem_cons] at valid plain
  obtain ⟨validType, validCommand, validUser, validCwd, validTimestamp, validHash, _⟩ := valid
  obtain ⟨plainType, plainCommand, plainUser, plainCwd, plainTimestamp, plainHash, _⟩ := plain
  exact .cons (readsAs_string eventType validType plainType)
    (.cons (readsAs_string command validCommand plainCommand)
    (.cons (readsAs_string user validUser plainUser) (.cons (readsAs_number pid ev.pid)
    (.cons (readsAs_string cwd validCwd plainCwd)
    (.cons (readsAs_string timestamp validTimestamp plainTimestamp)
    (.cons (readsAs_number returnCode ev.returnCode)
    (.cons (readsAs_string hash validHash plainHash) .nil)))))))

theorem parse_plain {ev : AuditEvent} (valid : ev.ValidUtf8) (plain : ev.Plain) :
    parse (decodeUtf8 (recordText (recordItems ev))) = some (.object (carriedMembers ev)) :=
  parse_record (recordItems_read valid plain) (carriedMembers_keys ev)

theorem intUnits_marks (value : Int) : marks (intUnits value) = 0 := by
  rw [marks, List.countP_eq_zero]
  intro unit member mark
  have digits : ∀ unit ∈ digitUnits (decimalDigits value.natAbs), isDigitUnit unit = true := by
    intro unit member
    obtain ⟨digit, listed, rfl⟩ := List.mem_map.mp member
    exact (digitUnit_facts (decimalDigits_lt listed)).1
  have noDigit : isDigitUnit unit = false := by
    simp only [isMark, Bool.or_eq_true, decide_eq_true_eq] at mark
    rcases mark with rfl | rfl <;> decide
  unfold intUnits at member
  split at member
  · rcases List.mem_cons.mp member with rfl | digit
    · exact absurd mark (by decide)
    · exact absurd (digits unit digit) (by simp [noDigit])
  · exact absurd (digits unit member) (by simp [noDigit])

/-- The text has too few marks for the escapes that a quote, a backslash or a control
character in a field would take. -/
theorem carries_plain {ev : AuditEvent} {value : Json} (valid : ev.ValidUtf8)
    (parses : parse (decodeUtf8 (recordText (recordItems ev))) = some value)
    (carries : Carries value ev) : ev.Plain := by
  obtain ⟨members, rfl, present⟩ := carries_iff.mp carries
  have cost := (membersCost_lookup (carriedMembers_keys ev) present).trans
    (parse_object_cost parses)
  rw [marks_record (recordItems_encoded valid)] at cost
  have names := recordKeys_names
  simp only [recordKeys, List.forall_mem_cons] at names
  obtain ⟨eventType, command, user, pid, cwd, timestamp, returnCode, hash, _⟩ := names
  simp only [carriedMembers, membersCost, memberCost, leafCost, stringCost_eq, recordItems,
    itemMarks, KeyedText.Value.text, List.map_cons, List.map_nil, List.sum_cons, List.sum_nil,
    eventType.decoded, command.decoded, user.decoded, pid.decoded, cwd.decoded, timestamp.decoded,
    returnCode.decoded, hash.decoded, decodeUtf8_formatInt, intUnits_marks] at cost
  have unescaped : ∀ text ∈ ev.strings, (decodeUtf8 text).countP needsEscape = 0 := by
    simp only [AuditEvent.strings, List.forall_mem_cons, List.not_mem_nil, false_implies,
      implies_true, and_true]
    omega
  intro text member
  refine (plain_iff (valid text member)).mpr fun unit listed => ?_
  simpa using List.countP_eq_zero.mp (unescaped text member) unit listed

theorem expressJson_record {ev : AuditEvent} (terminated : ev.Terminated) :
    expressJson (recordText (recordItems ev)) =
      parse (decodeUtf8 (recordText (recordItems ev))) := by
  have short : ¬100 * 1024 < (recordText (recordItems ev)).length := by
    have length := jsonText_length terminated
    rw [jsonText_eq, jsonEventMax] at length
    omega
  obtain ⟨bytes, head⟩ : ∃ bytes, recordText (recordItems ev) = KeyedText.openBrace :: bytes := by
    rw [recordItems, recordText]
    exact ⟨_, rfl⟩
  have text : decodeUtf8 (recordText (recordItems ev)) = 123 :: decodeUtf8 bytes := by
    rw [head]
    exact decodeUtf8_cons (by decide) bytes
  have noMark : stripBom (123 :: decodeUtf8 bytes) = 123 :: decodeUtf8 bytes := rfl
  have start : skipSpace (123 :: decodeUtf8 bytes) = 123 :: decodeUtf8 bytes := rfl
  have present : recordText (recordItems ev) ≠ [] := by simp [head]
  rw [expressJson, if_neg short, if_neg present, text]
  simp only [noMark, start]

theorem postedBody_decodes_iff (client : HttpClient) {ev : AuditEvent}
    (terminated : ev.Terminated) (valid : ev.ValidUtf8) :
    (∃ value, expressJson (postEventRequest client ev).body = some value ∧ Carries value ev) ↔
      ev.Plain := by
  have body : (postEventRequest client ev).body = recordText (recordItems ev) := by
    simp only [postEventRequest, auditEventToJson_eq terminated]
  rw [body, expressJson_record terminated]
  constructor
  · rintro ⟨value, parses, carries⟩
    exact carries_plain valid parses carries
  · intro plain
    exact ⟨.object (carriedMembers ev), parse_plain valid plain, carries_members ev⟩

theorem execveEvent_strings {command : Bytes} (nulFree : (0 : UInt8) ∉ command)
    (fits : command.length < commandMax) : (execveEvent command).strings =
      [ascii "execve", command, ascii "testuser", ascii "/tmp", ascii "2026-06-04T12:00:00", []] := by
  have spelled : (CharArray.ofStr command : CharArray commandMax).str = command :=
    CharArray.ofStr_str nulFree (by omega)
  rw [AuditEvent.strings, execveEvent, spelled, CharArray.ofStr_str (by decide) (by decide),
    CharArray.ofStr_str (by decide) (by decide), CharArray.ofStr_str (by decide) (by decide),
    CharArray.ofStr_str (by decide) (by decide), CharArray.ofStr_str (by decide) (by decide)]

theorem execveEvent_validUtf8 {command : Bytes} (ascii : isAscii command = true)
    (nulFree : (0 : UInt8) ∉ command) (fits : command.length < commandMax) :
    (execveEvent command).ValidUtf8 := by
  rw [AuditEvent.ValidUtf8, execveEvent_strings nulFree fits]
  simp only [List.forall_mem_cons, List.not_mem_nil, false_implies, implies_true, and_true]
  refine ⟨validUtf8_ascii ?_, validUtf8_ascii ascii, validUtf8_ascii ?_, validUtf8_ascii ?_,
    validUtf8_ascii ?_, validUtf8_ascii ?_⟩
  all_goals decide

theorem unquotedBody_decodes :
    ∃ value, expressJson (postEventRequest ⟨true, .ofStr (ascii "http://localhost:8443")⟩
        (execveEvent (ascii "ls -la /tmp"))).body = some value ∧
      Carries value (execveEvent (ascii "ls -la /tmp")) := by
  refine (postedBody_decodes_iff _ (execveEvent_terminated (by decide))
    (execveEvent_validUtf8 (by decide) (by decide) (by decide))).mpr ?_
  rw [AuditEvent.Plain, execveEvent_strings (by decide) (by decide)]
  decide

theorem quotedBody_misread :
    ¬∃ value, expressJson (postEventRequest ⟨true, .ofStr (ascii "http://localhost:8443")⟩
        (execveEvent (ascii "sh -c \"id\""))).body = some value ∧
      Carries value (execveEvent (ascii "sh -c \"id\"")) := by
  have terminated : (execveEvent (ascii "sh -c \"id\"")).Terminated :=
    execveEvent_terminated (by decide)
  have valid : (execveEvent (ascii "sh -c \"id\"")).ValidUtf8 :=
    execveEvent_validUtf8 (by decide) (by decide) (by decide)
  rintro ⟨value, decodes, carries⟩
  simp only [postEventRequest, auditEventToJson_eq terminated, expressJson_record terminated]
    at decodes
  have plain := carries_plain valid decodes carries
  rw [AuditEvent.Plain, execveEvent_strings (by decide) (by decide)] at plain
  revert plain
  decide

end BlockchainAuditor
