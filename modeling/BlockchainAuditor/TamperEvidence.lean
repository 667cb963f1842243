import BlockchainAuditor.Verification
import BlockchainAuditor.Library.JsNumberText

/-! What an accepting verifier says about the fields of a stored event: its digest covers
them one behind the other, with nothing between. -/

namespace BlockchainAuditor

open CStrings JavaScript

structure Fields where
  eventType : JsString
  command : JsString
  user : JsString
  pid : ℤ
  cwd : JsString
  timestamp : JsString
  returnCode : ℤ

def IsInteger (number : JsNumber) (value : ℤ) : Prop :=
  number = .finite value ∨ number = .negativeZero ∧ value = 0

structure StoredAs (value : Json) (fields : Fields) (hash : Json) : Prop where
  eventType : value.get "event_type" = some (some (.string fields.eventType))
  command : value.get "command" = some (some (.string fields.command))
  user : value.get "user" = some (some (.string fields.user))
  pid : ∃ number, value.get "pid" = some (some (.number number)) ∧ IsInteger number fields.pid
  cwd : value.get "cwd" = some (some (.string fields.cwd))
  timestamp : value.get "timestamp" = some (some (.string fields.timestamp))
  returnCode : ∃ number, value.get "return_code" = some (some (.number number)) ∧
    IsInteger number fields.returnCode
  hash : value.get "hash" = some (some hash)

def integerBytes (value : ℤ) : Bytes := encodeUtf8 (JsNumber.finite value).text

def Fields.text (fields : Fields) : Bytes :=
  encodeUtf8 fields.eventType ++ encodeUtf8 fields.command ++ encodeUtf8 fields.user ++
    integerBytes fields.pid ++ encodeUtf8 fields.cwd ++ encodeUtf8 fields.timestamp ++
    integerBytes fields.returnCode

variable {value : Json} {fields : Fields} {hash : Json} {name : String}

theorem textPart_string {text : JsString} (got : value.get name = some (some (.string text))) :
    textPart value name = .ok (encodeUtf8 text) := by
  by_cases empty : text = []
  · simp [textPart, property, got, orElse, truthy, empty, Bind.bind, Except.bind]
  · simp [textPart, property, got, orElse, truthy, empty, Bind.bind, Except.bind]

theorem numberPart_integer {number : JsNumber} {integer : ℤ}
    (got : value.get name = some (some (.number number))) (isInteger : IsInteger number integer) :
    numberPart value name = .ok (integerBytes integer) := by
  have chosen : (orElse (some (.number number)) (.number (.finite 0))).toText =
      some (JsNumber.finite integer).text := by
    rcases isInteger with rfl | ⟨rfl, rfl⟩
    · by_cases zero : integer = 0
      · simp [orElse, zero, Json.toText]
      · simp [orElse, truthy, zero, Json.toText]
    · simp [orElse, truthy, Json.toText]
  simp only [numberPart, property, got, Bind.bind, Except.bind, chosen, integerBytes]

theorem StoredAs.hashedText (stored : StoredAs value fields hash) :
    BlockchainAuditor.hashedText value = .ok fields.text := by
  obtain ⟨_, gotPid, pid⟩ := stored.pid
  obtain ⟨_, gotReturnCode, returnCode⟩ := stored.returnCode
  simp only [BlockchainAuditor.hashedText, textPart_string stored.eventType,
    textPart_string stored.command, textPart_string stored.user, numberPart_integer gotPid pid,
    textPart_string stored.cwd, textPart_string stored.timestamp,
    numberPart_integer gotReturnCode returnCode, Bind.bind, Except.bind, Fields.text]

theorem StoredAs.property_hash (stored : StoredAs value fields hash) :
    property value "hash" = .ok (some hash) := by
  rw [property, stored.hash]

def storedEvent (fields : Fields) (hash : Json) : Json :=
  .object [(units "event_type", .string fields.eventType),
    (units "command", .string fields.command), (units "user", .string fields.user),
    (units "pid", .number (.finite fields.pid)), (units "cwd", .string fields.cwd),
    (units "timestamp", .string fields.timestamp),
    (units "return_code", .number (.finite fields.returnCode)), (units "hash", hash)]

theorem storedEvent_stored (fields : Fields) (hash : Json) :
    StoredAs (storedEvent fields hash) fields hash where
  eventType := rfl
  command := rfl
  user := rfl
  pid := ⟨_, rfl, Or.inl rfl⟩
  cwd := rfl
  timestamp := rfl
  returnCode := ⟨_, rfl, Or.inl rfl⟩
  hash := rfl

theorem integerBytes_ends (integer : ℤ) : ∃ front, ∃ digit : ℕ, digit < 10 ∧
    JavaScript.ValidUtf8 front ∧ integerBytes integer = front ++ integerBytes digit := by
  obtain ⟨front, digit, text, small, ascii⟩ := integer_ends integer
  have last : ∀ unit ∈ [digitUnit digit], unit < 128 := by simpa using digitUnit_lt small
  refine ⟨encodeUtf8 front, digit, small, validUtf8_encodeUtf8 front, ?_⟩
  rw [integerBytes, integerBytes, Int.cast_natCast, digit_text small, text,
    encodeUtf8_ascii (List.forall_mem_append.mpr ⟨ascii, last⟩), encodeUtf8_ascii ascii,
    encodeUtf8_ascii last, List.map_append]

theorem integerBytes_length (integer : ℤ) :
    (integerBytes integer).length = (JsNumber.finite integer).text.length := by
  obtain ⟨front, digit, text, small, ascii⟩ := integer_ends integer
  have last : ∀ unit ∈ [digitUnit digit], unit < 128 := by simpa using digitUnit_lt small
  rw [integerBytes, text, encodeUtf8_ascii (List.forall_mem_append.mpr ⟨ascii, last⟩),
    List.length_map]

theorem integerBytes_positive (integer : ℤ) : 0 < (integerBytes integer).length := by
  obtain ⟨front, digit, text, _⟩ := integer_ends integer
  rw [integerBytes_length, text, List.length_append, List.length_singleton]
  omega

theorem integerBytes_digit {digit : ℕ} (small : digit < 10) :
    integerBytes digit = [digitByte digit] := by
  rw [integerBytes, Int.cast_natCast, digit_text small]
  interval_cases digit <;> decide

/-- Every string is empty, and both integers are one digit. -/
structure Fields.Minimal (fields : Fields) : Prop where
  eventType : fields.eventType = []
  command : fields.command = []
  user : fields.user = []
  pid : ∃ digit : ℕ, digit < 10 ∧ fields.pid = digit
  cwd : fields.cwd = []
  timestamp : fields.timestamp = []
  returnCode : ∃ digit : ℕ, digit < 10 ∧ fields.returnCode = digit

theorem integerBytes_eq_digit {integer : ℤ} {digit : ℕ} (small : digit < 10)
    (single : (integerBytes integer).length = 1) {rest others : Bytes}
    (same : integerBytes integer ++ rest = digitByte digit :: others) :
    integer = digit ∧ rest = others := by
  rw [integerBytes_length] at single
  obtain ⟨other, otherSmall, rfl⟩ := integer_single single
  rw [integerBytes_digit otherSmall, List.singleton_append] at same
  obtain ⟨bytes, rests⟩ := List.cons.inj same
  have value := (digitByte_digit otherSmall).2.2
  rw [bytes, (digitByte_digit small).2.2] at value
  exact ⟨by omega, rests⟩

theorem Fields.Minimal.unique {fields altered : Fields} (minimal : fields.Minimal)
    (same : altered.text = fields.text) : altered = fields := by
  obtain ⟨eventType, command, user, ⟨pid, pidSmall, pidEq⟩, cwd, timestamp,
    ⟨returnCode, returnCodeSmall, returnCodeEq⟩⟩ := minimal
  have text : fields.text = [digitByte pid, digitByte returnCode] := by
    simp only [Fields.text, eventType, command, user, cwd, timestamp, pidEq, returnCodeEq,
      integerBytes_digit pidSmall, integerBytes_digit returnCodeSmall]
    rfl
  rw [text] at same
  have lengths := congrArg List.length same
  have pidPositive := integerBytes_positive altered.pid
  have returnCodePositive := integerBytes_positive altered.returnCode
  simp only [Fields.text, List.length_append, List.length_cons, List.length_nil] at lengths
  have empty : ∀ text : JsString, (encodeUtf8 text).length = 0 → text = [] := fun text none =>
    encodeUtf8_eq_nil.mp (List.length_eq_zero_iff.mp none)
  have noEventType := empty altered.eventType (by omega)
  have noCommand := empty altered.command (by omega)
  have noUser := empty altered.user (by omega)
  have noCwd := empty altered.cwd (by omega)
  have noTimestamp := empty altered.timestamp (by omega)
  have nothing : encodeUtf8 [] = [] := rfl
  simp only [Fields.text, noEventType, noCommand, noUser, noCwd, noTimestamp, nothing,
    List.nil_append, List.append_nil] at same
  obtain ⟨samePid, rest⟩ := integerBytes_eq_digit pidSmall (by omega) same
  have lastText : integerBytes altered.returnCode ++ [] = [digitByte returnCode] := by
    rw [List.append_nil]
    exact rest
  obtain ⟨sameReturnCode, _⟩ := integerBytes_eq_digit returnCodeSmall (by omega) lastText
  cases fields
  cases altered
  simp_all

def Judgeable (value : Json) : Prop := ∃ fields hash, StoredAs value fields hash

theorem verifyEvents_cons (sha256 : Bytes → Digest) (stored : StoredAs value fields hash)
    (rest : List Json) (verified : Bool) (failed : List Json) :
    Handlers.verifyEvents sha256 (value :: rest) verified failed =
      if isText (some hash) (hexUnits (sha256 fields.text)) then
        Handlers.verifyEvents sha256 rest verified failed
      else Handlers.verifyEvents sha256 rest false (failed ++ [hash]) := by
  simp only [Handlers.verifyEvents, computeSHA256, stored.hashedText, stored.property_hash,
    Bind.bind, Except.bind, Option.getD_some]

/-- Stored events never make the loop stop, and what it finds about some of them it keeps. -/
theorem verifyEvents_judgeable (sha256 : Bytes → Digest) {values : List Json}
    (judgeable : ∀ value ∈ values, Judgeable value) :
    ∃ holds found, ∀ rest verified failed,
      Handlers.verifyEvents sha256 (values ++ rest) verified failed =
        Handlers.verifyEvents sha256 rest (verified && holds) (failed ++ found) := by
  induction values with
  | nil => exact ⟨true, [], by simp⟩
  | cons value values ih =>
      obtain ⟨fields, hash, stored⟩ := judgeable value (by simp)
      obtain ⟨holds, found, later⟩ := ih fun other member => judgeable other (by simp [member])
      by_cases matching : isText (some hash) (hexUnits (sha256 fields.text)) = true
      · refine ⟨holds, found, fun rest verified failed => ?_⟩
        rw [List.cons_append, verifyEvents_cons sha256 stored, if_pos matching, later]
      · refine ⟨false, hash :: found, fun rest verified failed => ?_⟩
        rw [List.cons_append, verifyEvents_cons sha256 stored, if_neg matching, later]
        simp

theorem handleVerify_failing {sha256 : Bytes → Digest} (stored : StoredAs value fields hash)
    (differs : isText (some hash) (hexUnits (sha256 fields.text)) = false)
    {before after : List Json} (earlier : ∀ other ∈ before, Judgeable other)
    (later : ∀ other ∈ after, Judgeable other) :
    ∃ front back, Handlers.handleVerify sha256 (units "GET") true
        (.ok (.array (before ++ value :: after))) =
      Handlers.report false (before ++ value :: after).length (front ++ hash :: back) := by
  obtain ⟨holds, front, fronts⟩ := verifyEvents_judgeable sha256 earlier
  obtain ⟨rest, back, backs⟩ := verifyEvents_judgeable sha256 later
  refine ⟨front, back, ?_⟩
  have tail := backs [] false (front ++ [hash])
  rw [List.append_nil] at tail
  have run : Handlers.verifyEvents sha256 (before ++ value :: after) true [] =
      .ok (false, front ++ hash :: back) := by
    rw [fronts, verifyEvents_cons sha256 stored, if_neg (by simp [differs]), List.nil_append, tail]
    simp [Handlers.verifyEvents]
  simp [Handlers.handleVerify, run]

theorem handleVerify_single (sha256 : Bytes → Digest) (stored : StoredAs value fields hash) :
    Handlers.handleVerify sha256 (units "GET") true (.ok (.array [value])) =
      Handlers.report (isText (some hash) (hexUnits (sha256 fields.text))) 1
        (if isText (some hash) (hexUnits (sha256 fields.text)) then [] else [hash]) := by
  have judged := verifyEvents_cons sha256 stored [] true []
  have ended : ∀ verified failed, Handlers.verifyEvents sha256 [] verified failed =
      .ok (verified, failed) := fun _ _ => rfl
  rw [ended, ended] at judged
  by_cases matching : isText (some hash) (hexUnits (sha256 fields.text)) = true
  · simp [Handlers.handleVerify, judged, matching]
  · simp [Handlers.handleVerify, judged, matching]

/-- `handleVerify` finds nothing wrong with the event. -/
def Accepted (sha256 : Bytes → Digest) (value : Json) : Prop :=
  Handlers.handleVerify sha256 (units "GET") true (.ok (.array [value])) = Handlers.report true 1 []

theorem accepted_iff {sha256 : Bytes → Digest} (stored : StoredAs value fields hash) :
    Accepted sha256 value ↔ isText (some hash) (hexUnits (sha256 fields.text)) = true := by
  rw [Accepted, handleVerify_single sha256 stored]
  by_cases matching : isText (some hash) (hexUnits (sha256 fields.text)) = true
  · simp [matching]
  · simp [matching, Handlers.report]

/-- An event with the same hash and other fields, whose text does not collide, puts the
hash into `failed`, whatever else is stored. -/
def TamperEvident (sha256 : Bytes → Digest) (fields : Fields) (hash : Json) : Prop :=
  ∀ altered value, StoredAs value altered hash → altered ≠ fields →
    Set.InjOn sha256 {fields.text, altered.text} →
    ∀ before after, (∀ other ∈ before, Judgeable other) → (∀ other ∈ after, Judgeable other) →
      ∃ front back, Handlers.handleVerify sha256 (units "GET") true
          (.ok (.array (before ++ value :: after))) =
        Handlers.report false (before ++ value :: after).length (front ++ hash :: back)

theorem TamperEvident.unique {sha256 : Bytes → Digest} (evident : TamperEvident sha256 fields hash)
    (matching : isText (some hash) (hexUnits (sha256 fields.text)) = true) {altered : Fields}
    (same : altered.text = fields.text) : altered = fields := by
  by_contra different
  obtain ⟨front, back, failing⟩ := evident altered _ (storedEvent_stored altered hash) different
    (by simp [same]) [] [] (by simp) (by simp)
  have accepted := handleVerify_single sha256 (storedEvent_stored altered hash)
  rw [same, matching] at accepted
  rw [List.nil_append, accepted] at failing
  simp [Handlers.report] at failing

theorem shifted_front (fields : Fields) : ∃ (content : JsString) (digit : ℕ), digit < 10 ∧
    { fields with eventType := content, command := [], user := [], pid := digit }.text =
      fields.text ∧
    { fields with eventType := [], command := content, user := [], pid := digit }.text =
      fields.text := by
  obtain ⟨front, digit, small, valid, split⟩ := integerBytes_ends fields.pid
  obtain ⟨content, whole⟩ : ∃ content, encodeUtf8 content = encodeUtf8 fields.eventType ++
      encodeUtf8 fields.command ++ encodeUtf8 fields.user ++ front :=
    ⟨_, encodeUtf8_decodeUtf8 ((((validUtf8_encodeUtf8 _).append (validUtf8_encodeUtf8 _)).append
      (validUtf8_encodeUtf8 _)).append valid)⟩
  have nothing : encodeUtf8 [] = [] := rfl
  refine ⟨content, digit, small, ?_, ?_⟩
  · simp only [Fields.text, whole, nothing, split, List.append_assoc, List.nil_append]
  · simp only [Fields.text, whole, nothing, split, List.append_assoc, List.nil_append]

theorem shifted_back (fields : Fields) : ∃ (content : JsString) (digit : ℕ), digit < 10 ∧
    { fields with cwd := content, timestamp := [], returnCode := digit }.text = fields.text ∧
    { fields with cwd := [], timestamp := content, returnCode := digit }.text =
      fields.text := by
  obtain ⟨front, digit, small, valid, split⟩ := integerBytes_ends fields.returnCode
  obtain ⟨content, whole⟩ : ∃ content, encodeUtf8 content = encodeUtf8 fields.cwd ++
      encodeUtf8 fields.timestamp ++ front :=
    ⟨_, encodeUtf8_decodeUtf8 (((validUtf8_encodeUtf8 _).append (validUtf8_encodeUtf8 _)).append
      valid)⟩
  have nothing : encodeUtf8 [] = [] := rfl
  refine ⟨content, digit, small, ?_, ?_⟩
  · simp only [Fields.text, whole, nothing, split, List.append_assoc, List.nil_append]
  · simp only [Fields.text, whole, nothing, split, List.append_assoc, List.nil_append]

theorem tamperEvident_iff {sha256 : Bytes → Digest} (stored : StoredAs value fields hash)
    (accepted : Accepted sha256 value) : TamperEvident sha256 fields hash ↔ fields.Minimal := by
  have matching := (accepted_iff stored).mp accepted
  constructor
  · intro evident
    obtain ⟨content, digit, small, first, second⟩ := shifted_front fields
    obtain ⟨other, lastDigit, lastSmall, third, fourth⟩ := shifted_back fields
    have inEventType := evident.unique matching first
    have inCommand := evident.unique matching second
    have inCwd := evident.unique matching third
    have inTimestamp := evident.unique matching fourth
    exact {
      eventType := (congrArg Fields.eventType inCommand).symm
      command := (congrArg Fields.command inEventType).symm
      user := (congrArg Fields.user inEventType).symm
      pid := ⟨digit, small, (congrArg Fields.pid inEventType).symm⟩
      cwd := (congrArg Fields.cwd inTimestamp).symm
      timestamp := (congrArg Fields.timestamp inCwd).symm
      returnCode := ⟨lastDigit, lastSmall, (congrArg Fields.returnCode inCwd).symm⟩ }
  · intro minimal altered other otherStored different collisionFree before after earlier later
    refine handleVerify_failing otherStored ?_ earlier later
    obtain rfl : hash = .string (hexUnits (sha256 fields.text)) := by
      have same := isText_eq matching
      exact Option.some.inj same
    by_contra kept
    have digests : sha256 fields.text = sha256 altered.text := by
      have equal : isText (some (.string (hexUnits (sha256 fields.text))))
          (hexUnits (sha256 altered.text)) = true := by simpa using kept
      exact hexUnits_injective (of_decide_eq_true equal)
    have texts : fields.text = altered.text := collisionFree (by simp) (by simp) digests
    exact different (minimal.unique texts.symm)

def lsFields : Fields where
  eventType := units "execve"
  command := units "ls"
  user := units "root"
  pid := 42
  cwd := units "/root"
  timestamp := units "2026-06-04T12:00:00"
  returnCode := 0

def movedFields : Fields := { lsFields with eventType := units "execv", command := units "els" }

def lsTextDigest : Digest :=
  ⟨#[222, 87, 207, 184, 210, 219, 240, 83, 152, 116, 145, 35, 37, 228, 51, 143, 47, 255, 84, 150,
    138, 161, 135, 31, 188, 211, 244, 26, 3, 227, 175, 158], rfl⟩

def lsTextSha256 (input : Bytes) : Digest :=
  if input = ascii "execvelsroot42/root2026-06-04T12:00:000" then lsTextDigest else lsDigest

theorem lsFields_text : lsFields.text = ascii "execvelsroot42/root2026-06-04T12:00:000" := by
  decide +kernel

theorem movedFields_text : movedFields.text = lsFields.text := by decide +kernel

theorem lsFields_accepted :
    Accepted lsTextSha256 (storedEvent lsFields (.string (hexUnits lsTextDigest))) := by
  rw [accepted_iff (storedEvent_stored _ _), lsFields_text, lsTextSha256, if_pos rfl]
  simp [isText]

theorem lsFields_judged :
    TamperEvident lsTextSha256 lsFields (.string (hexUnits lsTextDigest)) ↔ lsFields.Minimal :=
  tamperEvident_iff (storedEvent_stored _ _) lsFields_accepted

theorem movedFields_accepted :
    ¬TamperEvident lsTextSha256 lsFields (.string (hexUnits lsTextDigest)) := by
  intro evident
  have matching := (accepted_iff (storedEvent_stored _ _)).mp lsFields_accepted
  have same := congrArg Fields.command (evident.unique matching movedFields_text)
  exact absurd same (by decide)

end BlockchainAuditor
