import BlockchainAuditor.LedgerEntries

/-! A command that spells out the members of another record. `audit_event_from_json` takes the
first occurrence of each key and reads the record that is spelled; the gateway takes the last. -/

namespace BlockchainAuditor

open CStrings JavaScript KeyedPuts KeyedText

/-- The record of an event from its command on, without its last quote and brace. -/
def spelling (ev : AuditEvent) : Bytes :=
  ev.command.str ++ ascii "\",\"user\":\"" ++ ev.user.str ++ ascii "\"," ++
  ascii "\"pid\":" ++ formatInt ev.pid.toInt ++ ascii ",\"cwd\":\"" ++ ev.cwd.str ++
  ascii "\",\"timestamp\":\"" ++ ev.timestamp.str ++ ascii "\",\"return_code\":" ++
  formatInt ev.returnCode.toInt ++ ascii ",\"hash\":\"" ++ ev.hash.str

structure Spells (ev spelled : AuditEvent) : Prop where
  eventType : ev.eventType.str = spelled.eventType.str
  command : ev.command.str = spelling spelled

variable {sha256 : Bytes → Digest} {ev spelled : AuditEvent} {extra : List Item}

theorem Spells.record (spells : Spells ev spelled) :
    recordText (recordItems ev) = recordText (recordItems spelled ++ (recordItems ev).drop 2) := by
  have user : ascii "\",\"user\":\"" = [quote, comma, quote] ++ ascii "user" ++ [quote, colon, quote] :=
    rfl
  have closes : ascii "\"," = [quote, comma] := rfl
  have pid : ascii "\"pid\":" = [quote] ++ ascii "pid" ++ [quote, colon] := rfl
  have cwd : ascii ",\"cwd\":\"" = [comma, quote] ++ ascii "cwd" ++ [quote, colon, quote] := rfl
  have timestamp : ascii "\",\"timestamp\":\"" =
      [quote, comma, quote] ++ ascii "timestamp" ++ [quote, colon, quote] := rfl
  have returnCode : ascii "\",\"return_code\":" =
      [quote, comma, quote] ++ ascii "return_code" ++ [quote, colon] := rfl
  have hash : ascii ",\"hash\":\"" = [comma, quote] ++ ascii "hash" ++ [quote, colon, quote] := rfl
  simp only [recordItems, spells.eventType, spells.command, spelling, user, closes, pid, cwd, timestamp,
    returnCode, hash, List.drop_succ_cons, List.drop_zero, recordText, tailText, itemText,
    List.append_assoc, List.cons_append, List.nil_append]

/-! A reader that takes the first occurrence of each key reads nothing behind a record. -/

section Extended

variable (index : Nat) {key text : Bytes}

theorem extended_string (carried : Carried ev)
    (here : (recordItems ev)[index]? = some (key, .quoted text)) :
    textAfter (stringKey key) (recordText (recordItems ev ++ extra)) =
      some (text ++ quote :: tailText ((recordItems ev).drop (index + 1) ++ extra)) := by
  conv => lhs; rw [recordItems_split here, List.append_assoc, List.cons_append]
  exact textAfter_quoted (recordItems_searchKey (List.mem_of_getElem? here))
    (carried_cleanBefore carried index) (recordItems_fresh here)

theorem extended_number (carried : Carried ev)
    (here : (recordItems ev)[index]? = some (key, .bare text)) :
    textAfter (numberKey key) (recordText (recordItems ev ++ extra)) =
      some (text ++ tailText ((recordItems ev).drop (index + 1) ++ extra)) := by
  conv => lhs; rw [recordItems_split here, List.append_assoc, List.cons_append]
  exact textAfter_bare (recordItems_searchKey (List.mem_of_getElem? here))
    (carried_cleanBefore carried index) (recordItems_fresh here)

theorem extended_read {size : Nat} {array : CharArray size} (carried : Carried ev)
    (terminated : array.Terminated)
    (here : (recordItems ev)[index]? = some (key, .quoted array.str)) (plain : quote ∉ array.str) :
    ∃ rest, textAfter (stringKey key) (recordText (recordItems ev ++ extra)) = some rest ∧
      (.ofStr array.str : CharArray size) = .ofStr (quotedField (size - 1) rest) := by
  have shorter := CharArray.str_length_lt terminated
  refine ⟨_, extended_string index carried here, ?_⟩
  rw [quotedField_eq (by omega), takeWhile_plain.mpr plain]

end Extended

theorem extended_accepts (terminated : ev.Terminated) (carried : Carried ev) (overflow : Overflow) :
    Accepts overflow (recordText (recordItems ev ++ extra)) ev.cleared where
  eventType := extended_read 0 carried terminated.eventType rfl carried.eventType
  command := by
    refine ⟨_, extended_string 1 carried rfl, ?_⟩
    rw [unescape_clean carried.commandQuote carried.commandBackslash, List.take_of_length_le
      (Nat.le_sub_one_of_lt (CharArray.str_length_lt terminated.command))]
    rfl
  user := extended_read 2 carried terminated.user rfl carried.user
  pid := by
    refine ⟨_, extended_number 3 carried rfl, ?_⟩
    rw [List.append_assoc]
    exact readPid_formatInt overflow carried.pid (by decide : isDigit comma = false) _
  cwd := extended_read 4 carried terminated.cwd rfl carried.cwd
  timestamp := extended_read 5 carried terminated.timestamp rfl carried.timestamp
  returnCode := by
    refine ⟨_, extended_number 6 carried rfl, ?_⟩
    rw [List.append_assoc]
    exact readReturnCode_formatInt overflow carried.returnCode (by decide : isDigit comma = false) _
  hash := extended_read 7 carried terminated.hash rfl carried.hash

/-! A reader that takes the last occurrence reads the rest of the line too. -/

/-- What the gateway sees: the command that is spelled, and the other fields of the event. -/
def respelled (ev spelled : AuditEvent) : AuditEvent := { ev with command := spelled.command }

def repeatedMembers (ev spelled : AuditEvent) : List Member :=
  carriedMembers spelled ++ (carriedMembers (respelled ev spelled)).drop 2

theorem repeatedMembers_names : ∀ member ∈ repeatedMembers ev spelled, arrayIndex member.1 = none := by
  have names := recordKeys_names
  simp only [recordKeys, List.forall_mem_cons] at names
  obtain ⟨eventType, command, user, pid, cwd, timestamp, returnCode, hash, _⟩ := names
  simp only [repeatedMembers, carriedMembers, List.drop_succ_cons, List.drop_zero, List.cons_append,
    List.nil_append, List.forall_mem_cons]
  exact ⟨eventType.name, command.name, user.name, pid.name, cwd.name, timestamp.name,
    returnCode.name, hash.name, user.name, pid.name, cwd.name, timestamp.name, returnCode.name,
    hash.name, fun _ none => absurd none List.not_mem_nil⟩

theorem repeatedMembers_carry (sameType : ev.eventType.str = spelled.eventType.str) :
    Carries (.object (setMembers [] (repeatedMembers ev spelled))) (respelled ev spelled) := by
  refine carries_iff.mpr ⟨_, rfl, fun member listed => ?_⟩
  rw [lookup_setMembers repeatedMembers_names]
  simp only [carriedMembers, respelled, List.mem_cons, List.not_mem_nil, or_false] at listed
  rcases listed with rfl | rfl | rfl | rfl | rfl | rfl | rfl | rfl
  · rw [sameType]
    rfl
  all_goals rfl

theorem Spells.parse (spells : Spells ev spelled) (valid : spelled.ValidUtf8) (plain : spelled.Plain)
    (otherValid : (respelled ev spelled).ValidUtf8) (otherPlain : (respelled ev spelled).Plain) :
    JavaScript.parse (decodeUtf8 (recordText (recordItems ev))) =
      some (.object (setMembers [] (repeatedMembers ev spelled))) := by
  have rest : List.Forall₂ ReadsAs ((recordItems (respelled ev spelled)).drop 2)
      ((carriedMembers (respelled ev spelled)).drop 2) :=
    List.forall₂_drop 2 (recordItems_read otherValid otherPlain)
  rw [spells.record]
  exact parse_record_repeated (List.rel_append (recordItems_read valid plain) rest)

/-- The integrity check of the line passes for the record that is spelled, whatever the hash
of the event; the gateway decodes the event, with the command of that record. -/
theorem spelled_verified (terminated : ev.Terminated) (spells : Spells ev spelled)
    (otherTerminated : spelled.Terminated) (carried : Carried spelled)
    (hashed : Sealed sha256 spelled) :
    (∀ overflow, ∃ read,
      auditEventFromJson overflow (auditEventToJson ev jsonEventMax) = some (0, read) ∧
      SameFields read spelled) ∧
    (∀ overflow storedHash, storedHash.Ended →
      checkLine sha256 overflow storedHash (auditEventToJson ev jsonEventMax) = some .verified) ∧
    (spelled.ValidUtf8 → spelled.Plain → (respelled ev spelled).ValidUtf8 →
      (respelled ev spelled).Plain → ∃ value,
        expressJson (auditEventToJson ev jsonEventMax) = some value ∧
        Carries value (respelled ev spelled)) := by
  have nulFree := recordItems_nulFree ev
  have decodes : ∀ overflow, auditEventFromJson overflow (recordText (recordItems ev)) =
      some (0, spelled.cleared) := by
    intro overflow
    refine (auditEventFromJson_accepts nulFree).mpr ?_
    rw [spells.record]
    exact extended_accepts otherTerminated carried overflow
  have same := cleared_sameFields otherTerminated
  have hash : spelled.cleared.hash.str = hexDigest (sha256 (hashText spelled.cleared)) := by
    rw [hashText_congr same.toSameContent, same.hash, hashed.hash_eq, sha256Hash_str,
      snprintf_fits (hashText_length otherTerminated)]
  rw [auditEventToJson_eq terminated]
  refine ⟨fun overflow => ⟨_, decodes overflow, same⟩, ?_, ?_⟩
  · intro overflow storedHash ended
    rw [checkLine_eq nulFree storedHash (decodes overflow), if_pos ⟨hash, ended⟩]
  · intro valid plain otherValid otherPlain
    rw [expressJson_record terminated]
    exact ⟨_, spells.parse valid plain otherValid otherPlain, repeatedMembers_carry spells.eventType⟩

def spelledLs : AuditEvent := sealedEvent (ascii "ls")

theorem spelledLs_spelling : spelling spelledLs =
    ascii ("ls\",\"user\":\"testuser\",\"pid\":9999,\"cwd\":\"/tmp\"," ++
      "\"timestamp\":\"2026-06-04T12:00:00\",\"return_code\":0,\"hash\":\"") ++
      hexDigest idDigest := by
  have strings : spelledLs.strings = _ := sealedEvent_strings (by decide) (by decide)
  simp only [AuditEvent.strings, List.cons.injEq, and_true] at strings
  obtain ⟨_, command, user, cwd, timestamp, hash⟩ := strings
  rw [spelling, command, user, cwd, timestamp, hash]
  have pid : formatInt spelledLs.pid.toInt = ascii "9999" := by decide +kernel
  have returnCode : formatInt spelledLs.returnCode.toInt = ascii "0" := by decide +kernel
  rw [pid, returnCode]
  decide +kernel

theorem spelledLs_fits :
    (0 : UInt8) ∉ spelling spelledLs ∧ (spelling spelledLs).length < commandMax := by
  rw [spelledLs_spelling]
  decide +kernel

def injectedLs : AuditEvent := execveEvent (spelling spelledLs)

theorem injectedLs_spells : Spells injectedLs spelledLs where
  eventType := rfl
  command := CharArray.ofStr_str spelledLs_fits.1 spelledLs_fits.2.le

theorem injectedLs_verified :
    (∀ overflow, ∃ read,
      auditEventFromJson overflow (auditEventToJson injectedLs jsonEventMax) = some (0, read) ∧
      SameFields read spelledLs) ∧
    (∀ overflow storedHash, storedHash.Ended →
      checkLine (fun _ => idDigest) overflow storedHash (auditEventToJson injectedLs jsonEventMax) =
        some .verified) ∧
    (spelledLs.ValidUtf8 → spelledLs.Plain → (respelled injectedLs spelledLs).ValidUtf8 →
      (respelled injectedLs spelledLs).Plain → ∃ value,
        expressJson (auditEventToJson injectedLs jsonEventMax) = some value ∧
        Carries value (respelled injectedLs spelledLs)) := by
  have hashed : Sealed (fun _ => idDigest) spelledLs := auditEventComputeHash_sealed _ _
  have loggable : Loggable spelledLs := execveHashed_loggable (by decide) (apart_of_all (by decide))
  exact spelled_verified (execveEvent_terminated spelledLs_fits.2) injectedLs_spells
    (execveHashed_terminated (by decide)) (loggable.carried hashed) hashed

end BlockchainAuditor
