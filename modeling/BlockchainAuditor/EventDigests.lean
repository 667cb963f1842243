import BlockchainAuditor.GatewayAnswers

/-! What the verifier of the gateway makes of events, member by member. -/

namespace BlockchainAuditor

open CStrings JavaScript

inductive Part
  | text (name : String)
  | number (name : String)

def Part.name : Part → String
  | .text name => name
  | .number name => name

def digestParts : List Part :=
  [.text "event_type", .text "command", .text "user", .number "pid", .text "cwd", .text "timestamp",
    .number "return_code"]

/-- What a member of an event adds to the hashed text, or the message of the runtime. -/
inductive Part.Gives (event : Json) : Part → Throws Bytes → Prop
  | missing {name value} : event.get name = some value → truthy value = false →
      Part.Gives event (.text name) (.ok [])
  | text {name text} : event.get name = some (some (.string text)) →
      Part.Gives event (.text name) (.ok (encodeUtf8 text))
  | noText {name value} : event.get name = some (some value) → truthy (some value) = true →
      (∀ text, value ≠ .string text) → Part.Gives event (.text name) (.error (typeError value))
  | zero {name value} : event.get name = some value → truthy value = false →
      Part.Gives event (.number name) (.ok (ascii "0"))
  | number {name value text} : event.get name = some (some value) → truthy (some value) = true →
      value.toText = some text → Part.Gives event (.number name) (.ok (encodeUtf8 text))
  | noPrimitive {name value} : event.get name = some (some value) → truthy (some value) = true →
      value.toText = none → Part.Gives event (.number name) (.error notPrimitive)
  | null {part} : event = .null → Part.Gives event part
      (.error (units "Cannot read properties of null (reading '" ++ units part.name ++ units "')"))

/-- The first member that throws decides. -/
inductive Hashes (event : Json) : List Part → Throws Bytes → Prop
  | nil : Hashes event [] (.ok [])
  | cons {part rest bytes text} : part.Gives event (.ok bytes) → Hashes event rest (.ok text) →
      Hashes event (part :: rest) (.ok (bytes ++ text))
  | later {part rest bytes message} : part.Gives event (.ok bytes) →
      Hashes event rest (.error message) → Hashes event (part :: rest) (.error message)
  | throws {part rest message} : part.Gives event (.error message) →
      Hashes event (part :: rest) (.error message)

/-- The hashes that are not the digest of their events, unless an event has none. -/
inductive Judges (sha256 : Bytes → Digest) : List Json → Throws (List Json) → Prop
  | nil : Judges sha256 [] (.ok [])
  | holds {event rest text outcome} : Hashes event digestParts (.ok text) →
      event.get "hash" = some (some (.string (hexUnits (sha256 text)))) →
      Judges sha256 rest outcome → Judges sha256 (event :: rest) outcome
  | fails {event rest text hash failed} : Hashes event digestParts (.ok text) →
      event.get "hash" = some hash → hash ≠ some (.string (hexUnits (sha256 text))) →
      Judges sha256 rest (.ok failed) → Judges sha256 (event :: rest) (.ok (hash.getD .null :: failed))
  | later {event rest text hash message} : Hashes event digestParts (.ok text) →
      event.get "hash" = some hash → hash ≠ some (.string (hexUnits (sha256 text))) →
      Judges sha256 rest (.error message) → Judges sha256 (event :: rest) (.error message)
  | throws {event rest message} : Hashes event digestParts (.error message) →
      Judges sha256 (event :: rest) (.error message)

inductive Verdict (sha256 : Bytes → Digest) (events : List Json) : Response → Prop
  | judged {failed} : Judges sha256 events (.ok failed) → Verdict sha256 events
      ⟨200, .object [(units "verified", .bool failed.isEmpty),
        (units "total", .number (.finite events.length)), (units "failed", .array failed)]⟩
  | stopped {message} : Judges sha256 events (.error message) →
      Verdict sha256 events (.error 500 (.string message))

variable {event : Json} {sha256 : Bytes → Digest}

theorem textPart_gives (name : String) : (Part.text name).Gives event (textPart event name) := by
  unfold textPart property
  cases got : event.get name with
  | none =>
      have null : event = .null := by cases event <;> simp [Json.get] at got ⊢
      exact .null null
  | some value =>
      by_cases present : truthy value = true
      · cases value with
        | none => simp [truthy] at present
        | some content =>
            simp only [Bind.bind, Except.bind, orElse, present, if_true]
            cases content with
            | string text => exact .text got
            | _ => exact .noText got present fun _ same => Json.noConfusion same
      · have replaced : orElse value (.string []) = .string [] := by
          cases value with
          | none => rfl
          | some content => simp [orElse, present]
        simp only [Bind.bind, Except.bind, replaced]
        exact .missing got (by simpa using present)

theorem numberPart_gives (name : String) : (Part.number name).Gives event (numberPart event name) := by
  unfold numberPart property
  cases got : event.get name with
  | none =>
      have null : event = .null := by cases event <;> simp [Json.get] at got ⊢
      exact .null null
  | some value =>
      by_cases present : truthy value = true
      · cases value with
        | none => simp [truthy] at present
        | some content =>
            simp only [Bind.bind, Except.bind, orElse, present, if_true]
            cases converted : content.toText with
            | none => exact .noPrimitive got present converted
            | some text => exact .number got present converted
      · have replaced : orElse value (.number (.finite 0)) = .number (.finite 0) := by
          cases value with
          | none => rfl
          | some content => simp [orElse, present]
        have zero : (Json.number (.finite 0)).toText = some (units "0") := by decide +kernel
        have bytes : encodeUtf8 (units "0") = ascii "0" := by decide
        simp only [Bind.bind, Except.bind, replaced, zero, bytes]
        exact .zero got (by simpa using present)

def Part.read (event : Json) : Part → Throws Bytes
  | .text name => textPart event name
  | .number name => numberPart event name

def readParts (event : Json) : List Part → Throws Bytes
  | [] => .ok []
  | part :: rest => do
    let bytes ← part.read event
    let text ← readParts event rest
    .ok (bytes ++ text)

theorem readParts_hashes (event : Json) (parts : List Part) :
    Hashes event parts (readParts event parts) := by
  induction parts with
  | nil => exact .nil
  | cons part rest ih =>
      have gives : part.Gives event (part.read event) := by
        cases part with
        | text name => exact textPart_gives name
        | number name => exact numberPart_gives name
      rw [readParts]
      cases first : part.read event with
      | error message => exact .throws (first ▸ gives)
      | ok bytes =>
          cases others : readParts event rest with
          | error message => exact .later (first ▸ gives) (others ▸ ih)
          | ok text => exact .cons (first ▸ gives) (others ▸ ih)

theorem hashedText_hashes (event : Json) : Hashes event digestParts (hashedText event) := by
  have goesOn : ∀ (bytes : Bytes) (next : Bytes → Throws Bytes),
      (Except.ok bytes >>= next) = next bytes := fun _ _ => rfl
  have same : hashedText event = readParts event digestParts := by
    simp [hashedText, digestParts, readParts, Part.read, List.append_assoc, goesOn]
  rw [same]
  exact readParts_hashes event digestParts

theorem verifyEvents_judges (events : List Json) :
    ∃ outcome, Judges sha256 events outcome ∧ ∀ verified failed,
      Handlers.verifyEvents sha256 events verified failed =
        outcome.map fun found => (verified && found.isEmpty, failed ++ found) := by
  induction events with
  | nil => exact ⟨_, .nil, fun _ _ => by simp [Handlers.verifyEvents, Except.map]⟩
  | cons event rest ih =>
      obtain ⟨outcome, judges, agrees⟩ := ih
      have hashes := hashedText_hashes event
      cases hashed : hashedText event with
      | error message =>
          rw [hashed] at hashes
          refine ⟨_, .throws hashes, fun _ _ => ?_⟩
          simp [Handlers.verifyEvents, computeSHA256, hashed, Bind.bind, Except.bind, Except.map]
      | ok text =>
          rw [hashed] at hashes
          have computed : computeSHA256 sha256 event = .ok (hexUnits (sha256 text)) := by
            rw [computeSHA256, hashed]
            rfl
          obtain ⟨hash, got⟩ : ∃ hash, event.get "hash" = some hash := by
            have takes := (textPart_ok_iff.mp ⟨_, (bind_ok_iff.mp hashed).choose_spec.1⟩)
            exact takesText_hash takes
          have turn : ∀ verified failed, Handlers.verifyEvents sha256 (event :: rest) verified failed =
              if isText hash (hexUnits (sha256 text)) then
                Handlers.verifyEvents sha256 rest verified failed
              else Handlers.verifyEvents sha256 rest false (failed ++ [hash.getD .null]) := by
            intro verified failed
            rw [Handlers.verifyEvents, computed, property_ok_iff.mpr got]
            rfl
          by_cases holds : isText hash (hexUnits (sha256 text)) = true
          · refine ⟨outcome, .holds hashes (isText_eq holds ▸ got) judges, fun verified failed => ?_⟩
            rw [turn, if_pos holds, agrees]
          · have differs : hash ≠ some (.string (hexUnits (sha256 text))) := by
              rintro rfl
              simp [isText] at holds
            cases outcome with
            | ok found =>
                refine ⟨_, .fails hashes got differs judges, fun verified failed => ?_⟩
                rw [turn, if_neg holds, agrees]
                simp [Except.map]
            | error message =>
                refine ⟨_, .later hashes got differs judges, fun verified failed => ?_⟩
                rw [turn, if_neg holds, agrees]
                rfl

theorem handleVerify_verdict (events : List Json) : Verdict sha256 events
    (Handlers.handleVerify sha256 (units "GET") true (.ok (.array events))) := by
  obtain ⟨outcome, judges, agrees⟩ := @verifyEvents_judges sha256 events
  rw [Handlers.handleVerify, if_neg (by simp), if_neg (by simp), agrees]
  cases outcome with
  | ok failed => exact .judged judges
  | error message => exact .stopped judges

end BlockchainAuditor
