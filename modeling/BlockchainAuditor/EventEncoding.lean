import BlockchainAuditor.EventDecoding
import Mathlib.Tactic.IntervalCases

/-! The text that `audit_event_to_json` writes as a list of members, and where the
search of the reader finds each of them. -/

namespace BlockchainAuditor

open CStrings Decimal KeyedText

structure AuditEvent.Terminated (ev : AuditEvent) : Prop where
  eventType : ev.eventType.Terminated
  command : ev.command.Terminated
  user : ev.user.Terminated
  cwd : ev.cwd.Terminated
  timestamp : ev.timestamp.Terminated
  hash : ev.hash.Terminated

def recordItems (ev : AuditEvent) : List Item :=
  [(ascii "event_type", .quoted ev.eventType.str),
   (ascii "command", .quoted ev.command.str),
   (ascii "user", .quoted ev.user.str),
   (ascii "pid", .bare (formatInt ev.pid.toInt)),
   (ascii "cwd", .quoted ev.cwd.str),
   (ascii "timestamp", .quoted ev.timestamp.str),
   (ascii "return_code", .bare (formatInt ev.returnCode.toInt)),
   (ascii "hash", .quoted ev.hash.str)]

theorem jsonText_eq (ev : AuditEvent) : jsonText ev = recordText (recordItems ev) := by
  unfold jsonText
  simp only [recordItems, recordText, tailText, itemText, List.append_assoc, List.cons_append,
    List.nil_append]
  rfl

theorem int32_natAbs_le (value : Int32) : value.toInt.natAbs ≤ 2 ^ 31 := by
  have lower := Int32.le_toInt value
  have upper := Int32.toInt_lt value
  omega

theorem formatInt_length (value : Int32) : (formatInt value.toInt).length ≤ 11 := by
  have bound := int32_natAbs_le value
  have digits : (decimalDigits value.toInt.natAbs).length ≤ 10 :=
    decimalDigits_length (by decide) (by omega)
  unfold formatInt
  split <;> simp <;> omega

theorem formatInt_isNumeral {value : Int} {byte : UInt8} (member : byte ∈ formatInt value) :
    byte = minus ∨ isDigit byte = true := by
  have digits : ∀ byte ∈ (decimalDigits value.natAbs).map digitByte, isDigit byte = true := by
    intro byte member
    obtain ⟨digit, digitMember, rfl⟩ := List.mem_map.mp member
    have small := decimalDigits_lt digitMember
    clear digitMember member
    interval_cases digit <;> decide
  unfold formatInt at member
  split at member
  · rcases List.mem_cons.mp member with sign | digit
    · exact Or.inl sign
    · exact Or.inr (digits byte digit)
  · exact Or.inr (digits byte member)

theorem formatInt_excludes (byte : UInt8) (notSign : byte ≠ minus)
    (notDigit : isDigit byte = false) (value : Int) : byte ∉ formatInt value := by
  intro member
  rcases formatInt_isNumeral member with sign | digit
  · exact notSign sign
  · simp [notDigit] at digit

theorem jsonText_length {ev : AuditEvent} (terminated : ev.Terminated) :
    (jsonText ev).length + 1 < jsonEventMax := by
  have eventType : ev.eventType.str.length < 16 := CharArray.str_length_lt terminated.eventType
  have command : ev.command.str.length < 4096 := CharArray.str_length_lt terminated.command
  have user : ev.user.str.length < 64 := CharArray.str_length_lt terminated.user
  have cwd : ev.cwd.str.length < 1024 := CharArray.str_length_lt terminated.cwd
  have timestamp : ev.timestamp.str.length < 32 := CharArray.str_length_lt terminated.timestamp
  have hash : ev.hash.str.length < 65 := CharArray.str_length_lt terminated.hash
  have pid := formatInt_length ev.pid
  have returnCode := formatInt_length ev.returnCode
  rw [jsonText_eq]
  simp only [recordItems, recordText, tailText, itemText, List.length_cons, List.length_append,
    List.length_nil, jsonEventMax,
    show (ascii "event_type").length = 10 by decide, show (ascii "command").length = 7 by decide,
    show (ascii "user").length = 4 by decide, show (ascii "pid").length = 3 by decide,
    show (ascii "cwd").length = 3 by decide, show (ascii "timestamp").length = 9 by decide,
    show (ascii "return_code").length = 11 by decide, show (ascii "hash").length = 4 by decide]
  omega

theorem auditEventToJson_eq {ev : AuditEvent} (terminated : ev.Terminated) :
    auditEventToJson ev jsonEventMax = recordText (recordItems ev) := by
  rw [auditEventToJson, snprintf_fits (by have := jsonText_length terminated; omega), jsonText_eq]

theorem recordItems_control {byte : UInt8} (control : byte < 32) (ev : AuditEvent) :
    byte ∉ recordText (recordItems ev) ↔
      byte ∉ ev.eventType.str ∧ byte ∉ ev.command.str ∧ byte ∉ ev.user.str ∧
        byte ∉ ev.cwd.str ∧ byte ∉ ev.timestamp.str ∧ byte ∉ ev.hash.str := by
  have apart : ∀ visible : Bytes, visible.all (32 ≤ ·) = true → byte ∉ visible := by
    intro visible allVisible member
    have shown := List.all_eq_true.mp allVisible byte member
    exact absurd control (by simpa using shown)
  have keys : ((recordItems ev).map Prod.fst).all (·.all (32 ≤ ·)) = true := by
    simp only [recordItems, List.map_cons, List.map_nil]
    decide
  have key : ∀ item ∈ recordItems ev, byte ∉ item.1 := fun item member =>
    apart item.1 (List.all_eq_true.mp keys item.1 (List.mem_map_of_mem member))
  have number : ∀ value : Int, byte ∉ formatInt value :=
    formatInt_excludes byte (fun sign => apart [minus] (by decide) (by simp [sign])) (by
      have low : ¬48 ≤ byte := fun digit => absurd (UInt8.lt_of_le_of_lt digit control) (by decide)
      simp [isDigit, low])
  rw [mem_recordText (apart punctuation (by decide)), not_exists]
  constructor
  · intro absent
    have text : ∀ item ∈ recordItems ev, byte ∉ item.2.text := fun item member inside =>
      absent item ⟨member, Or.inr inside⟩
    simp only [recordItems, List.forall_mem_cons, Value.text] at text
    obtain ⟨eventType, command, user, _, cwd, timestamp, _, hash, _⟩ := text
    exact ⟨eventType, command, user, cwd, timestamp, hash⟩
  · rintro ⟨eventType, command, user, cwd, timestamp, hash⟩ item ⟨member, inside⟩
    refine inside.elim (key item member) ?_
    simp only [recordItems, List.mem_cons, List.not_mem_nil, or_false] at member
    rcases member with rfl | rfl | rfl | rfl | rfl | rfl | rfl | rfl
    · exact eventType
    · exact command
    · exact user
    · exact number _
    · exact cwd
    · exact timestamp
    · exact number _
    · exact hash

theorem recordItems_nulFree (ev : AuditEvent) :
    (0 : UInt8) ∉ recordText (recordItems ev) :=
  (recordItems_control (by decide) ev).mpr ⟨ev.eventType.str_nulFree, ev.command.str_nulFree,
    ev.user.str_nulFree, ev.cwd.str_nulFree, ev.timestamp.str_nulFree, ev.hash.str_nulFree⟩

def CleanBefore (ev : AuditEvent) (index : Nat) : Prop :=
  ∀ item ∈ (recordItems ev).take index, Clean item

theorem recordItems_fresh {ev : AuditEvent} {index : Nat} {item : Item}
    (here : (recordItems ev)[index]? = some item) :
    item.1 ∉ ((recordItems ev).take index).map Prod.fst := by
  have distinct : ((recordItems ev).map Prod.fst).Nodup := by
    simp only [recordItems, List.map_cons, List.map_nil]
    decide
  have split := List.take_append_drop index (recordItems ev)
  rw [← split, List.map_append, List.nodup_append] at distinct
  intro member
  refine distinct.2.2 item.1 member item.1 ?_ rfl
  have front : ((recordItems ev).drop index)[0]? = some item := by
    rw [List.getElem?_drop]
    simpa using here
  exact List.mem_map_of_mem (List.mem_of_getElem? front)

theorem recordItems_searchKey {ev : AuditEvent} {item : Item} (member : item ∈ recordItems ev) :
    SearchKey item.1 := by
  have keys : ∀ key ∈ (recordItems ev).map Prod.fst,
      quote ∉ key ∧ comma ∉ key ∧ colon ∉ key := by
    simp only [recordItems, List.map_cons, List.map_nil]
    decide
  obtain ⟨noQuote, noComma, noColon⟩ := keys item.1 (List.mem_map_of_mem member)
  exact ⟨noQuote, noComma, noColon⟩

theorem recordItems_split {ev : AuditEvent} {index : Nat} {item : Item}
    (here : (recordItems ev)[index]? = some item) :
    recordItems ev =
      (recordItems ev).take index ++ item :: (recordItems ev).drop (index + 1) := by
  obtain ⟨inside, value⟩ := List.getElem?_eq_some_iff.mp here
  conv => lhs; rw [← List.take_append_drop index (recordItems ev)]
  rw [List.drop_eq_getElem_cons inside, value]

theorem textAfter_string {ev : AuditEvent} (index : Nat) {key text : Bytes}
    (here : (recordItems ev)[index]? = some (key, .quoted text)) (clean : CleanBefore ev index) :
    textAfter (stringKey key) (recordText (recordItems ev)) =
      some (text ++ quote :: tailText ((recordItems ev).drop (index + 1))) := by
  conv => lhs; rw [recordItems_split here]
  exact textAfter_quoted (recordItems_searchKey (List.mem_of_getElem? here)) clean
    (recordItems_fresh here)

theorem textAfter_number {ev : AuditEvent} (index : Nat) {key text : Bytes}
    (here : (recordItems ev)[index]? = some (key, .bare text)) (clean : CleanBefore ev index) :
    textAfter (numberKey key) (recordText (recordItems ev)) =
      some (text ++ tailText ((recordItems ev).drop (index + 1))) := by
  conv => lhs; rw [recordItems_split here]
  exact textAfter_bare (recordItems_searchKey (List.mem_of_getElem? here)) clean
    (recordItems_fresh here)

theorem cleanBefore_next {ev : AuditEvent} (index : Nat) {item : Item}
    (clean : CleanBefore ev index) (here : (recordItems ev)[index]? = some item)
    (plain : quote ∉ item.2.text) : CleanBefore ev (index + 1) := by
  intro other member
  rw [List.take_add_one, here] at member
  rcases List.mem_append.mp member with earlier | last
  · exact clean other earlier
  · simp only [Option.toList_some, List.mem_singleton] at last
    subst last
    exact ⟨(recordItems_searchKey (List.mem_of_getElem? here)).quote, plain⟩

def execveEvent (command : Bytes) : AuditEvent where
  eventType := .ofStr (ascii "execve")
  command := .ofStr command
  user := .ofStr (ascii "testuser")
  pid := 9999
  cwd := .ofStr (ascii "/tmp")
  timestamp := .ofStr (ascii "2026-06-04T12:00:00")
  returnCode := 0
  hash := .ofStr []

theorem execveEvent_terminated {command : Bytes} (fits : command.length < commandMax) :
    (execveEvent command).Terminated where
  eventType := CharArray.ofStr_terminated (by decide)
  command := CharArray.ofStr_terminated fits
  user := CharArray.ofStr_terminated (by decide)
  cwd := CharArray.ofStr_terminated (by decide)
  timestamp := CharArray.ofStr_terminated (by decide)
  hash := CharArray.ofStr_terminated (by decide)

end BlockchainAuditor
