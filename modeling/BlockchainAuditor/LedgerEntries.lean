import BlockchainAuditor.Resubmission
import BlockchainAuditor.SealedLog
import BlockchainAuditor.WireFormat

/-! What the route `POST /api/events` makes of an event of the auditor: the entry that it
puts into the ledger, which for most events is the line of the local log. -/

namespace BlockchainAuditor

open CStrings JavaScript KeyedPuts
open KeyedText (recordText)

def middlewareStatus (body : Bytes) : Nat := if 100 * 1024 < body.length then 413 else 400

def postEvents (shim : Shim) (online : Bool) (submission : Submission) (body : Bytes)
    (ledger : Ledger) : Nat × Ledger :=
  match expressJson body with
  | none => (middlewareStatus body, ledger)
  | some event =>
    let (response, after) := Handlers.handleEvents (units "POST") online
      (submitEvent shim submission) FabricClient.getAllEvents event ledger
    (response.status, after)

theorem postEvents_ledger (shim : Shim) (online : Bool) (submission : Submission) (body : Bytes)
    (ledger : Ledger) : (postEvents shim online submission body ledger).2 =
      match expressJson body with
      | none => ledger
      | some event => step shim ledger (.createEvent online event submission) := by
  unfold postEvents
  cases expressJson body with
  | none => rfl
  | some event => simp [Handlers.handleEvents, step]

def eventEntry (shim : Shim) (ev : AuditEvent) : Option (StateKey × Bytes) :=
  match expressJson (auditEventToJson ev jsonEventMax) with
  | none => none
  | some event =>
    if (event.get "hash").any truthy then eventPut shim (some (FabricClient.submitArgument event))
    else none

variable {shim : Shim}

theorem posted_ledger (ev : AuditEvent) (ledger : Ledger) :
    (postEvents shim true .acknowledged (auditEventToJson ev jsonEventMax) ledger).2 =
      replay ledger (eventEntry shim ev).toList := by
  rw [postEvents_ledger, eventEntry]
  cases expressJson (auditEventToJson ev jsonEventMax) with
  | none => rfl
  | some event =>
      dsimp only
      rw [step_eq]
      cases named : (event.get "hash").any truthy with
      | false => simp [Operation.eventJSON, named, replay]
      | true => simp [Operation.eventJSON, named, Submission.committed, createdLedger_eq]

theorem writesAs_string {key : String} (name : MemberName key) {text : Bytes}
    (valid : JavaScript.ValidUtf8 text) (plain : text.any mustEscape = false) :
    WritesAs (ascii key, .quoted text) (units key, .string (decodeUtf8 text)) where
  encoded := ⟨validUtf8_ascii name.bytes, valid⟩
  key := name.decoded
  plain := by simpa using name.plain
  value := quoteText_plain (decodeUtf8_wellFormed text) ((plain_iff valid).mp plain)

theorem writesAs_number {key : String} (name : MemberName key) (value : Int32) :
    WritesAs (ascii key, .bare (formatInt value.toInt))
      (units key, .number (.finite value.toInt)) where
  encoded := ⟨validUtf8_ascii name.bytes, validUtf8_ascii (formatInt_ascii value.toInt)⟩
  key := name.decoded
  plain := by simpa using name.plain
  value := by
    have small := int32_natAbs_le value
    rw [valueUnits, decodeUtf8_formatInt]
    exact finite_text (by omega)

theorem recordItems_written {ev : AuditEvent} (valid : ev.ValidUtf8) (plain : ev.Plain) :
    List.Forall₂ WritesAs (recordItems ev) (carriedMembers ev) := by
  have names := recordKeys_names
  simp only [recordKeys, List.forall_mem_cons] at names
  obtain ⟨eventType, command, user, pid, cwd, timestamp, returnCode, hash, _⟩ := names
  simp only [AuditEvent.ValidUtf8, AuditEvent.Plain, AuditEvent.strings,
    List.forall_mem_cons] at valid plain
  obtain ⟨validType, validCommand, validUser, validCwd, validTimestamp, validHash, _⟩ := valid
  obtain ⟨plainType, plainCommand, plainUser, plainCwd, plainTimestamp, plainHash, _⟩ := plain
  exact .cons (writesAs_string eventType validType plainType)
    (.cons (writesAs_string command validCommand plainCommand)
    (.cons (writesAs_string user validUser plainUser) (.cons (writesAs_number pid ev.pid)
    (.cons (writesAs_string cwd validCwd plainCwd)
    (.cons (writesAs_string timestamp validTimestamp plainTimestamp)
    (.cons (writesAs_number returnCode ev.returnCode)
    (.cons (writesAs_string hash validHash plainHash) .nil)))))))

/-- The middleware decodes it and `JSON.stringify` writes it again, byte for byte. -/
theorem submitArgument_plain {ev : AuditEvent} (valid : ev.ValidUtf8) (plain : ev.Plain) :
    FabricClient.submitArgument (.object (carriedMembers ev)) =
      decodeUtf8 (recordText (recordItems ev)) := by
  rw [FabricClient.submitArgument, stringify_record (recordItems_written valid plain),
    (decodeUtf8_wellFormed _).decoded]

theorem decodeUtf8_ne_nil {bytes : Bytes} (valid : JavaScript.ValidUtf8 bytes) (present : bytes ≠ []) :
    decodeUtf8 bytes ≠ [] := by
  intro empty
  refine present ?_
  rw [← encodeUtf8_decodeUtf8 valid, empty]
  rfl

theorem eventPut_plain {ev : AuditEvent} (valid : ev.ValidUtf8) (plain : ev.Plain)
    (present : ev.hash.str ≠ []) :
    eventPut shim (some (decodeUtf8 (recordText (recordItems ev)))) =
      some (ev.hash.str, recordText (recordItems ev)) := by
  have hashValid : JavaScript.ValidUtf8 ev.hash.str := valid _ (by simp [AuditEvent.strings])
  have named : eventHash (some (decodeUtf8 (recordText (recordItems ev)))) =
      some (some (.string (decodeUtf8 ev.hash.str))) := by
    rw [eventHash, Option.getD_some, parse_plain valid plain]
    exact (carries_members ev).hash
  have visible := decodeUtf8_ne_nil hashValid present
  have wellFormed : isWellFormed (decodeUtf8 ev.hash.str) = true :=
    decide_eq_true (wellFormed_iff.mp (decodeUtf8_wellFormed _))
  have keyed : shim.stateKey (some (.string (decodeUtf8 ev.hash.str))) = .ok ev.hash.str := by
    rw [stateKey_wellFormed wellFormed, encodeUtf8_decodeUtf8 hashValid]
  simp [eventPut, named, truthy, visible, keyed, Shim.bufferFrom,
    encodeUtf8_decodeUtf8 (validUtf8_record (recordItems_encoded valid))]

theorem eventEntry_plain {ev : AuditEvent} (terminated : ev.Terminated) (valid : ev.ValidUtf8)
    (plain : ev.Plain) (present : ev.hash.str ≠ []) :
    eventEntry shim ev = some (ev.hash.str, auditEventToJson ev jsonEventMax) := by
  have put : eventPut shim (some (decodeUtf8 (recordText (recordItems ev)))) = _ :=
    eventPut_plain valid plain present
  have hashValid : JavaScript.ValidUtf8 ev.hash.str := valid _ (by simp [AuditEvent.strings])
  have named : ((Json.object (carriedMembers ev)).get "hash").any truthy = true := by
    simp [(carries_members ev).hash, truthy, decodeUtf8_ne_nil hashValid present]
  rw [eventEntry, auditEventToJson_eq terminated, expressJson_record terminated,
    parse_plain valid plain]
  dsimp only
  rw [if_pos named, submitArgument_plain valid plain, put]

/-- What the producers make of an event whose strings JSON writes as they are. -/
structure Storable (sha256 : Bytes → Digest) (ev : AuditEvent) : Prop where
  terminated : ev.Terminated
  valid : ev.ValidUtf8
  plain : ev.Plain
  hashed : Sealed sha256 ev

variable {sha256 : Bytes → Digest} {ev other : AuditEvent}

theorem Storable.hash_str (storable : Storable sha256 ev) :
    ev.hash.str = hexDigest (sha256 (hashText ev)) := by
  rw [storable.hashed.hash_eq, sha256Hash_str, snprintf_fits (hashText_length storable.terminated)]

theorem Storable.entry (storable : Storable sha256 ev) :
    eventEntry shim ev = some (ev.hash.str, auditEventToJson ev jsonEventMax) := by
  refine eventEntry_plain storable.terminated storable.valid storable.plain ?_
  rw [storable.hash_str, ← List.length_pos_iff, hexDigest_length]
  decide

theorem Storable.unquoted (storable : Storable sha256 ev) : Unquoted ev := by
  have excluded : ∀ text ∈ ev.strings, KeyedText.quote ∉ text := by
    intro text member inside
    have escaped : mustEscape KeyedText.quote = false := by
      simpa using List.any_eq_false.mp (storable.plain text member) _ inside
    exact absurd escaped (by decide)
  simp only [AuditEvent.strings, List.forall_mem_cons] at excluded
  obtain ⟨eventType, _, user, cwd, timestamp, _⟩ := excluded
  exact ⟨eventType, user, cwd, timestamp⟩

theorem storable_lines {captured : List AuditEvent} (storable : ∀ ev ∈ captured, Storable sha256 ev)
    (collisionFree : Set.InjOn sha256 {text | ∃ ev ∈ captured, text = hashText ev})
    (member : ev ∈ captured) (alsoMember : other ∈ captured) (sameHash : ev.hash.str = other.hash.str) :
    auditEventToJson ev jsonEventMax = auditEventToJson other jsonEventMax := by
  have first := storable ev member
  have second := storable other alsoMember
  have digests : sha256 (hashText ev) = sha256 (hashText other) := by
    refine hexDigest_injective ?_
    rw [← first.hash_str, ← second.hash_str, sameHash]
  have texts : hashText ev = hashText other :=
    collisionFree ⟨ev, member, rfl⟩ ⟨other, alsoMember, rfl⟩ digests
  obtain ⟨eventType, command, user, pid, cwd, timestamp, returnCode⟩ :=
    hashText_injective first.unquoted second.unquoted texts
  rw [auditEventToJson_eq first.terminated, auditEventToJson_eq second.terminated]
  simp only [recordItems, eventType, command, user, pid, cwd, timestamp, returnCode, sameHash]

theorem sealedEvent_strings {command : Bytes} (nulFree : (0 : UInt8) ∉ command)
    (fits : command.length < commandMax) : (sealedEvent command).strings =
      [ascii "execve", command, ascii "testuser", ascii "/tmp", ascii "2026-06-04T12:00:00",
        hexDigest idDigest] := by
  have same := execveEvent_strings nulFree fits
  simp only [AuditEvent.strings, List.cons.injEq, and_true] at same
  obtain ⟨eventType, spelled, user, cwd, timestamp, _⟩ := same
  have hash : (sealedEvent command).hash.str = hexDigest idDigest := sha256Hash_str _ _
  rw [AuditEvent.strings, hash, sealedEvent]
  simp only [auditEventComputeHash, eventType, spelled, user, cwd, timestamp]

theorem sealedEvent_storable {command : Bytes} (isAscii : isAscii command = true)
    (nulFree : (0 : UInt8) ∉ command) (fits : command.length < commandMax)
    (plain : command.any mustEscape = false) :
    Storable (fun _ => idDigest) (sealedEvent command) := by
  have strings := sealedEvent_strings nulFree fits
  refine ⟨execveHashed_terminated fits, ?_, ?_, auditEventComputeHash_sealed _ _⟩
  · rw [AuditEvent.ValidUtf8, strings]
    simp only [List.forall_mem_cons, List.not_mem_nil, false_implies, implies_true, and_true]
    refine ⟨validUtf8_ascii ?_, validUtf8_ascii isAscii, validUtf8_ascii ?_, validUtf8_ascii ?_,
      validUtf8_ascii ?_, validUtf8_ascii ?_⟩
    all_goals decide +kernel
  · rw [AuditEvent.Plain, strings]
    simp only [List.forall_mem_cons, plain, List.not_mem_nil, false_implies, implies_true, and_true,
      true_and]
    decide +kernel

end BlockchainAuditor
