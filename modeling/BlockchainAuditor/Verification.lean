import BlockchainAuditor.WireFormat
import BlockchainAuditor.IntegrityCheck

/-! The digest of the gateway's verifier against the hash of the auditor. -/

namespace BlockchainAuditor

open CStrings Decimal JavaScript

theorem textPart_carried {value : Json} {name : String} {text : Bytes}
    (valid : JavaScript.ValidUtf8 text)
    (got : value.get name = some (some (.string (decodeUtf8 text)))) :
    textPart value name = .ok text := by
  have encoded := encodeUtf8_decodeUtf8 valid
  by_cases empty : decodeUtf8 text = []
  · have nothing : text = [] := by
      rw [← encoded, empty]
      rfl
    simp [textPart, property, got, orElse, truthy, nothing, Bind.bind, Except.bind]
    rfl
  · simp [textPart, property, got, orElse, truthy, empty, encoded, Bind.bind, Except.bind]

theorem numberPart_carried {value : Json} {name : String} {number : Int32}
    (got : value.get name = some (some (.number (.finite number.toInt)))) :
    numberPart value name = .ok (formatInt number.toInt) := by
  have bound := int32_natAbs_le number
  have text : (JsNumber.finite number.toInt).text = intUnits number.toInt :=
    finite_text (by omega)
  have encoded : encodeUtf8 (intUnits number.toInt) = formatInt number.toInt := by
    rw [← decodeUtf8_formatInt]
    exact encodeUtf8_decodeUtf8 (validUtf8_ascii (formatInt_ascii _))
  have chosen : orElse (some (.number (.finite number.toInt))) (.number (.finite 0)) =
      .number (.finite number.toInt) := by
    by_cases zero : number.toInt = 0
    · simp [orElse, zero]
    · simp [orElse, truthy, zero]
  simp only [numberPart, property, got, Bind.bind, Except.bind, chosen, Json.toText, text, encoded]

def fieldsText (ev : AuditEvent) : Bytes :=
  ev.eventType.str ++ ev.command.str ++ ev.user.str ++ formatInt ev.pid.toInt ++ ev.cwd.str ++
    ev.timestamp.str ++ formatInt ev.returnCode.toInt

theorem hashedText_carried {value : Json} {ev : AuditEvent} (valid : ev.ValidUtf8)
    (carries : Carries value ev) : hashedText value = .ok (fieldsText ev) := by
  simp only [AuditEvent.ValidUtf8, AuditEvent.strings, List.forall_mem_cons] at valid
  obtain ⟨eventType, command, user, cwd, timestamp, _⟩ := valid
  simp only [hashedText, textPart_carried eventType carries.eventType,
    textPart_carried command carries.command, textPart_carried user carries.user,
    numberPart_carried carries.pid, textPart_carried cwd carries.cwd,
    textPart_carried timestamp carries.timestamp, numberPart_carried carries.returnCode,
    Bind.bind, Except.bind, fieldsText]

theorem fieldsText_length (ev : AuditEvent) :
    (fieldsText ev).length < (hashText ev).length := by
  unfold fieldsText hashText
  simp only [List.length_append]
  have opening : 0 < (ascii "\x7b\"event_type\":\"").length := by decide
  omega

theorem fieldsText_computed (sha256 : Bytes → Digest) (ev : AuditEvent) :
    fieldsText (auditEventComputeHash sha256 ev) = fieldsText ev := rfl

theorem computed_hash (sha256 : Bytes → Digest) {ev : AuditEvent} (terminated : ev.Terminated) :
    (auditEventComputeHash sha256 ev).hash.str = hexDigest (sha256 (hashText ev)) := by
  rw [auditEventComputeHash, snprintf_fits (hashText_length terminated), sha256Hash_str]

theorem hexDigest_ascii (digest : Digest) : isAscii (hexDigest digest) = true := by
  have letters : ∀ value : UInt8, value < 16 → hexDigit value < 128 := by
    intro value small
    have code := hexDigit_toNat small
    rw [UInt8.lt_iff_toNat_lt] at small ⊢
    simp only [UInt8.reduceToNat] at small ⊢
    split at code <;> omega
  refine isAscii_iff.mpr fun byte member => ?_
  obtain ⟨part, _, digit⟩ := List.mem_flatMap.mp member
  simp only [hexByte, List.mem_cons, List.not_mem_nil, or_false] at digit
  rcases digit with rfl | rfl
  · exact letters _ (high_lt part)
  · exact letters _ (low_lt part)

theorem decodeUtf8_hexDigest (digest : Digest) :
    decodeUtf8 (hexDigest digest) = hexUnits digest := by
  have decoded := decodeUtf8_ascii (hexDigest_ascii digest) []
  have ended : decodeUtf8 [] = [] := rfl
  rwa [List.append_nil, ended, List.append_nil] at decoded

theorem computed_validUtf8 (sha256 : Bytes → Digest) {ev : AuditEvent}
    (terminated : ev.Terminated) (valid : ev.ValidUtf8) :
    (auditEventComputeHash sha256 ev).ValidUtf8 := by
  have hash : JavaScript.ValidUtf8 (auditEventComputeHash sha256 ev).hash.str := by
    rw [computed_hash sha256 terminated]
    exact validUtf8_ascii (hexDigest_ascii _)
  simp only [AuditEvent.ValidUtf8, AuditEvent.strings, List.forall_mem_cons] at valid ⊢
  obtain ⟨eventType, command, user, cwd, timestamp, _, ended⟩ := valid
  exact ⟨eventType, command, user, cwd, timestamp, hash, ended⟩

theorem hexUnits_injective {left right : Digest} (same : hexUnits left = hexUnits right) :
    left = right := by
  have widen : Function.Injective UInt8.toUInt16 := by
    intro byte other equal
    have codes := congrArg UInt16.toNat equal
    rw [UInt8.toNat_toUInt16, UInt8.toNat_toUInt16] at codes
    exact UInt8.toNat_inj.mp codes
  exact hexDigest_injective (List.map_injective_iff.mpr widen same)

/-- What the verifier is given: the stored form of an event that the auditor sealed. -/
structure Stored (sha256 : Bytes → Digest) (value : Json) (ev : AuditEvent) : Prop where
  terminated : ev.Terminated
  valid : (auditEventComputeHash sha256 ev).ValidUtf8
  carries : Carries value (auditEventComputeHash sha256 ev)

section

variable {sha256 : Bytes → Digest} {value : Json} {ev : AuditEvent}

theorem Stored.hashedText (stored : Stored sha256 value ev) :
    BlockchainAuditor.hashedText value = .ok (fieldsText ev) := by
  rw [← fieldsText_computed sha256 ev]
  exact hashedText_carried stored.valid stored.carries

theorem Stored.hash (stored : Stored sha256 value ev) :
    property value "hash" = .ok (some (.string (hexUnits (sha256 (hashText ev))))) := by
  have got := stored.carries.hash
  rw [computed_hash sha256 stored.terminated, decodeUtf8_hexDigest] at got
  rw [property, got]

theorem Stored.fails (stored : Stored sha256 value ev)
    (different : sha256 (hashText ev) ≠ sha256 (fieldsText ev)) (rest : List Json)
    (verified : Bool) (failed : List Json) :
    Handlers.verifyEvents sha256 (value :: rest) verified failed =
      Handlers.verifyEvents sha256 rest false
        (failed ++ [.string (hexUnits (sha256 (hashText ev)))]) := by
  have mismatch : isText (some (.string (hexUnits (sha256 (hashText ev)))))
      (hexUnits (sha256 (fieldsText ev))) = false := by
    simpa [isText] using fun same => different (hexUnits_injective same)
  simp [Handlers.verifyEvents, computeSHA256, stored.hashedText, stored.hash, mismatch,
    Bind.bind, Except.bind]

end

theorem stored_value {sha256 : Bytes → Digest} {events : List AuditEvent} {values : List Json}
    (stored : List.Forall₂ (Stored sha256) values events) {ev : AuditEvent} (member : ev ∈ events) :
    ∃ value ∈ values, Stored sha256 value ev := by
  induction stored with
  | nil => simp at member
  | @cons value first values events pair others ih =>
      rcases List.mem_cons.mp member with rfl | later
      · exact ⟨value, by simp, pair⟩
      · obtain ⟨other, listed, found⟩ := ih later
        exact ⟨other, by simp [listed], found⟩

theorem verifyEvents_stored {sha256 : Bytes → Digest} {events : List AuditEvent}
    {values : List Json} (stored : List.Forall₂ (Stored sha256) values events)
    (different : ∀ ev ∈ events, sha256 (hashText ev) ≠ sha256 (fieldsText ev))
    (verified : Bool) (failed : List Json) :
    Handlers.verifyEvents sha256 values verified failed =
      .ok (verified && events.isEmpty,
        failed ++ events.map fun ev => .string (hexUnits (sha256 (hashText ev)))) := by
  induction stored generalizing verified failed with
  | nil => simp [Handlers.verifyEvents]
  | @cons value ev values events first others ih =>
      rw [first.fails (different ev (by simp)),
        ih fun other member => different other (by simp [member])]
      simp

theorem handleVerify_accepts_iff {sha256 : Bytes → Digest} {events : List AuditEvent}
    {values : List Json} (stored : List.Forall₂ (Stored sha256) values events)
    (collisionFree : Set.InjOn sha256 ({text | ∃ ev ∈ events, text = hashText ev} ∪
      {text | ∃ value ∈ values, hashedText value = .ok text})) :
    (Handlers.handleVerify sha256 (units "GET") true (.ok (.array values)) =
        Handlers.report true values.length [] ↔ events = []) ∧
      List.Forall₂ (fun value ev => hashedText value ≠ .ok (hashText ev)) values events := by
  constructor
  · have different : ∀ ev ∈ events, sha256 (hashText ev) ≠ sha256 (fieldsText ev) := by
      intro ev member same
      obtain ⟨value, listed, pair⟩ := stored_value stored member
      have equal := collisionFree (Or.inl ⟨ev, member, rfl⟩)
        (Or.inr ⟨value, listed, pair.hashedText⟩) same
      have length := fieldsText_length ev
      rw [equal] at length
      omega
    have answer : Handlers.handleVerify sha256 (units "GET") true (.ok (.array values)) =
        Handlers.report events.isEmpty values.length
          (events.map fun ev => .string (hexUnits (sha256 (hashText ev)))) := by
      simp [Handlers.handleVerify, verifyEvents_stored stored different]
    rw [answer]
    cases events with
    | nil => simp
    | cons ev events => simp [Handlers.report]
  · refine stored.imp fun value ev pair same => ?_
    rw [pair.hashedText] at same
    have length := fieldsText_length ev
    rw [Except.ok.inj same] at length
    omega

def lsEvent : AuditEvent := execveEvent (ascii "ls")

def lsFieldsDigest : Digest :=
  ⟨#[164, 30, 86, 100, 101, 166, 205, 253, 130, 186, 89, 18, 209, 65, 83, 62, 234, 178, 255,
    52, 166, 97, 131, 51, 220, 185, 94, 155, 170, 201, 106, 137], rfl⟩

def lsSha256 (input : Bytes) : Digest :=
  if input = hashText lsEvent then lsDigest else lsFieldsDigest

def lsStored : Json := .object (carriedMembers (auditEventComputeHash lsSha256 lsEvent))

theorem lsSha256_different : lsSha256 (hashText lsEvent) ≠ lsSha256 (fieldsText lsEvent) := by
  have texts : fieldsText lsEvent ≠ hashText lsEvent := by
    intro same
    have length := fieldsText_length lsEvent
    rw [same] at length
    omega
  rw [lsSha256, lsSha256, if_pos rfl, if_neg texts]
  decide

theorem lsStored_stored : Stored lsSha256 lsStored lsEvent where
  terminated := execveEvent_terminated (by decide)
  valid := computed_validUtf8 lsSha256 (execveEvent_terminated (by decide))
    (execveEvent_validUtf8 (by decide) (by decide) (by decide))
  carries := carries_members _

theorem lsEvent_judged :
    (Handlers.handleVerify lsSha256 (units "GET") true (.ok (.array [lsStored])) =
        Handlers.report true 1 [] ↔ [lsEvent] = []) ∧
      List.Forall₂ (fun value ev => hashedText value ≠ .ok (hashText ev)) [lsStored] [lsEvent] := by
  refine handleVerify_accepts_iff (.cons lsStored_stored .nil) ?_
  have texts : ({text | ∃ ev ∈ [lsEvent], text = hashText ev} ∪
      {text | ∃ value ∈ [lsStored], hashedText value = .ok text}) =
      ({hashText lsEvent, fieldsText lsEvent} : Set Bytes) := by
    ext text
    simp [lsStored_stored.hashedText, eq_comm, or_comm]
  rw [texts, Set.injOn_pair]
  exact fun same => absurd same lsSha256_different

theorem lsEvent_rejected :
    ¬Handlers.handleVerify lsSha256 (units "GET") true (.ok (.array [lsStored])) =
      Handlers.report true 1 [] := by
  have failed := verifyEvents_stored (.cons lsStored_stored .nil)
    (by simpa using lsSha256_different) true []
  simp [Handlers.handleVerify, failed, Handlers.report]

end BlockchainAuditor
