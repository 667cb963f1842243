import BlockchainAuditor.Verification
import BlockchainAuditor.Resubmission
import BlockchainAuditor.Library.Factorizations
import Mathlib.Logic.Relation

/-! Which events share a hash: those whose contents become the same when the text between
two fields, where a field holds a copy of it, is moved there. -/

namespace BlockchainAuditor

open CStrings JavaScript KeyedText Factorizations

structure Content where
  eventType : Bytes
  command : Bytes
  user : Bytes
  pid : Int32
  cwd : Bytes
  timestamp : Bytes
  returnCode : Int32
  deriving DecidableEq

def AuditEvent.content (ev : AuditEvent) : Content where
  eventType := ev.eventType.str
  command := ev.command.str
  user := ev.user.str
  pid := ev.pid
  cwd := ev.cwd.str
  timestamp := ev.timestamp.str
  returnCode := ev.returnCode

namespace Content

def commandPart (command : Bytes) : Bytes := ascii "\",\"command\":\"" ++ command

def userPart (user : Bytes) : Bytes := ascii "\",\"user\":\"" ++ user

def pidPart (pid : Int32) (cwd : Bytes) : Bytes :=
  ascii "\",\"pid\":" ++ (formatInt pid.toInt ++ (ascii ",\"cwd\":\"" ++ cwd))

def timestampPart (timestamp : Bytes) : Bytes := ascii "\",\"timestamp\":\"" ++ timestamp

def parts (content : Content) : List Bytes :=
  [content.eventType, commandPart content.command, userPart content.user,
    pidPart content.pid content.cwd, timestampPart content.timestamp]

def text (content : Content) : Bytes :=
  ascii "\x7b\"event_type\":\"" ++ content.parts.flatten ++ ascii "\",\"return_code\":" ++
    formatInt content.returnCode.toInt ++ ascii "\x7d"

theorem hashText_content (ev : AuditEvent) : hashText ev = ev.content.text := by
  unfold hashText text
  simp only [parts, AuditEvent.content, commandPart, userPart, pidPart, timestampPart,
    List.flatten_cons, List.flatten_nil, List.append_assoc, List.append_nil]
  rfl

/-- What ends a field moves to a later copy of itself, and what is in front of that copy
becomes the end of the field. -/
inductive Move : Content → Content → Prop
  | command {content : Content} {moved command : Bytes} :
      commandPart content.command = moved ++ commandPart command →
      Move content { content with eventType := content.eventType ++ moved, command }
  | user {content : Content} {moved user : Bytes} :
      userPart content.user = moved ++ userPart user →
      Move content { content with command := content.command ++ moved, user }
  | pid {content : Content} {moved cwd : Bytes} {pid : Int32} :
      pidPart content.pid content.cwd = moved ++ pidPart pid cwd →
      Move content { content with user := content.user ++ moved, pid, cwd }
  | timestamp {content : Content} {moved timestamp : Bytes} :
      timestampPart content.timestamp = moved ++ timestampPart timestamp →
      Move content { content with cwd := content.cwd ++ moved, timestamp }

theorem Move.text_eq {left right : Content} (move : Move left right) : left.text = right.text := by
  suffices flat : left.parts.flatten = right.parts.flatten ∧ left.returnCode = right.returnCode by
    rw [text, text, flat.1, flat.2]
  cases move with
  | command whole => exact ⟨by simp [parts, whole], rfl⟩
  | user whole => exact ⟨by simp [parts, whole, commandPart], rfl⟩
  | pid whole => exact ⟨by simp [parts, whole, userPart], rfl⟩
  | timestamp whole => exact ⟨by simp [parts, whole, pidPart], rfl⟩

/-- A content whose fields end no earlier is reached by moves, the last field's first. -/
theorem moves_of_behind {left common : Content} (behind : Behind [] left.parts common.parts)
    (sameReturnCode : left.returnCode = common.returnCode) :
    Relation.ReflTransGen Move left common := by
  obtain ⟨afterType, eventType, afterCommand, command, afterUser, user, afterCwd, pid, _, timestamp,
    rfl⟩ := behind
  rw [List.append_nil] at timestamp
  have first : Move left { left with
      cwd := left.cwd ++ afterCwd
      timestamp := common.timestamp } := .timestamp timestamp
  have second : Move { left with
      cwd := left.cwd ++ afterCwd
      timestamp := common.timestamp } { left with
      user := left.user ++ afterUser
      pid := common.pid
      cwd := common.cwd
      timestamp := common.timestamp } := .pid (by simpa [pidPart] using pid)
  have third : Move { left with
      user := left.user ++ afterUser
      pid := common.pid
      cwd := common.cwd
      timestamp := common.timestamp } { common with
      eventType := left.eventType
      command := left.command ++ afterCommand
      returnCode := left.returnCode } := .user (by simpa [userPart] using user)
  have fourth : Move { common with
      eventType := left.eventType
      command := left.command ++ afterCommand
      returnCode := left.returnCode } { common with
      eventType := left.eventType ++ afterType
      returnCode := left.returnCode } := .command (by simpa [commandPart] using command)
  have whole : { common with
      eventType := left.eventType ++ afterType
      returnCode := left.returnCode } = common := by
    rw [eventType, sameReturnCode, List.nil_append]
  rw [whole] at fourth
  exact (((Relation.ReflTransGen.single first).tail second).tail third).tail fourth

theorem exists_commonContent {left right : Content} {common : List Bytes}
    (extension : Extends left.parts right.parts common) :
    ∃ content : Content, content.parts = common ∧ content.returnCode = left.returnCode := by
  have after : ∀ {key text other piece : Bytes},
      key ++ text <+: piece ∨ key ++ other <+: piece → ∃ rest, piece = key ++ rest := by
    rintro key text other piece (⟨rest, whole⟩ | ⟨rest, whole⟩)
    · exact ⟨text ++ rest, by rw [← whole, List.append_assoc]⟩
    · exact ⟨other ++ rest, by rw [← whole, List.append_assoc]⟩
  have afterPid : ∀ {pid otherPid : Int32} {cwd other piece : Bytes},
      pidPart pid cwd <+: piece ∨ pidPart otherPid other <+: piece →
        ∃ found rest, piece = pidPart found rest := by
    rintro pid otherPid cwd other piece (⟨rest, whole⟩ | ⟨rest, whole⟩)
    · exact ⟨pid, cwd ++ rest, by rw [← whole]; simp [pidPart]⟩
    · exact ⟨otherPid, other ++ rest, by rw [← whole]; simp [pidPart]⟩
  obtain - | ⟨_, extension⟩ := extension
  rename_i eventType _ _
  obtain - | ⟨second, - | ⟨third, - | ⟨fourth, - | ⟨fifth, ended⟩⟩⟩⟩ := extension
  obtain _ | _ := ended
  obtain ⟨command, rfl⟩ := after second
  obtain ⟨user, rfl⟩ := after third
  obtain ⟨pid, cwd, rfl⟩ := afterPid fourth
  obtain ⟨timestamp, rfl⟩ := after fifth
  exact ⟨⟨eventType, command, user, pid, cwd, timestamp, left.returnCode⟩, rfl, rfl⟩

theorem text_split {left right : Content} (same : left.text = right.text) :
    left.parts.flatten = right.parts.flatten ∧ left.returnCode = right.returnCode := by
  have unquoted : ∀ content : Content, quote ∉ colon :: formatInt content.returnCode.toInt := by
    intro content
    have number := formatInt_excludes quote (by decide) (by decide) content.returnCode.toInt
    simpa [number] using (by decide : quote ≠ colon)
  have shown : ∀ content : Content, content.text =
      (ascii "\x7b\"event_type\":\"" ++ content.parts.flatten ++ ascii "\",\"return_code") ++
        quote :: (colon :: formatInt content.returnCode.toInt) ++ ascii "\x7d" := by
    intro content
    simp [text, ascii, quote, colon]
  rw [shown, shown] at same
  obtain ⟨fronts, numbers⟩ := split_last (unquoted left) (unquoted right)
    (List.append_cancel_right same)
  refine ⟨List.append_cancel_left (List.append_cancel_right fronts), ?_⟩
  exact Int32.toInt_inj.mp (formatInt_injective (List.cons.inj numbers).2)

theorem text_eq_iff {left right : Content} :
    left.text = right.text ↔ Relation.Join (Relation.ReflTransGen Move) left right := by
  constructor
  · intro same
    obtain ⟨flat, sameReturnCode⟩ := text_split same
    obtain ⟨pieces, behind, also, extension⟩ :=
      exists_common (by rfl : left.parts.length = right.parts.length)
        (by simpa using flat : left.parts.flatten = [] ++ right.parts.flatten)
    obtain ⟨common, rfl, returnCode⟩ := exists_commonContent extension
    exact ⟨common, moves_of_behind behind returnCode.symm,
      moves_of_behind also (by rw [returnCode, sameReturnCode])⟩
  · rintro ⟨common, moves, otherMoves⟩
    have kept : ∀ {content moved : Content}, Relation.ReflTransGen Move content moved →
        content.text = moved.text := by
      intro content moved moves
      induction moves with
      | refl => rfl
      | tail _ move ih => rw [ih, move.text_eq]
    rw [kept moves, kept otherMoves]

end Content

def hashMember (sha256 : Bytes → Digest) (ev : AuditEvent) : JsString :=
  decodeUtf8 (auditEventComputeHash sha256 ev).hash.str

def CollisionFree (sha256 : Bytes → Digest) (left right : AuditEvent) : Prop :=
  Set.InjOn sha256
    {snprintf jsonEventMax (hashText left), snprintf jsonEventMax (hashText right)}

/-- Different texts are hashed, the hashes differ and storing the second event keeps the
answer for the first. -/
structure Distinguished (left right : AuditEvent) : Prop where
  text : snprintf jsonEventMax (hashText left) ≠ snprintf jsonEventMax (hashText right)
  hash : ∀ sha256, CollisionFree sha256 left right →
    (auditEventComputeHash sha256 left).hash.str ≠ (auditEventComputeHash sha256 right).hash.str
  kept : ∀ sha256, CollisionFree sha256 left right → ∀ shim ledger eventJSON,
    eventHash eventJSON = some (some (.string (hashMember sha256 right))) →
    AuditChaincode.queryByHash shim (createdLedger shim ledger eventJSON)
        (some (hashMember sha256 left)) =
      AuditChaincode.queryByHash shim ledger (some (hashMember sha256 left))

theorem computed_str (sha256 : Bytes → Digest) (ev : AuditEvent) :
    (auditEventComputeHash sha256 ev).hash.str =
      hexDigest (sha256 (snprintf jsonEventMax (hashText ev))) :=
  sha256Hash_str sha256 _

theorem hashMember_key (shim : Shim) (sha256 : Bytes → Digest) (ev : AuditEvent) :
    shim.stateKey (some (.string (hashMember sha256 ev))) =
      .ok (auditEventComputeHash sha256 ev).hash.str := by
  have wellFormed : isWellFormed (hashMember sha256 ev) = true := by
    simp [isWellFormed, hashMember, decodeUtf8, toChars_ofChars]
  rw [stateKey_wellFormed wellFormed, hashMember, encodeUtf8_decodeUtf8]
  rw [computed_str]
  exact validUtf8_ascii (hexDigest_ascii _)

theorem createdLedger_getElem? {shim : Shim} {eventJSON : Option JsString} {hash : Json}
    {key other : StateKey} (named : eventHash eventJSON = some (some hash))
    (keyed : shim.stateKey (some hash) = .ok key) (apart : key ≠ other) (ledger : Ledger) :
    (createdLedger shim ledger eventJSON)[other]? = ledger[other]? := by
  rcases createdLedger_cases shim ledger eventJSON with
    same | ⟨found, bytes, payload, ⟨⟨event, member, parsed, got, _, foundKey, _⟩, _⟩, put⟩
  · rw [same]
  · have agree : some member = some (some hash) := by
      rw [← named, eventHash, parsed, Option.bind_some, got]
    obtain rfl := Option.some.inj agree
    obtain rfl : key = found := Except.ok.inj (keyed.symm.trans foundKey)
    rw [put, Std.ExtTreeMap.getElem?_insert, if_neg (by simpa using apart)]

theorem distinguished_of_text {left right : AuditEvent}
    (text : snprintf jsonEventMax (hashText left) ≠ snprintf jsonEventMax (hashText right)) :
    Distinguished left right := by
  have hashes : ∀ sha256, CollisionFree sha256 left right →
      (auditEventComputeHash sha256 left).hash.str ≠
        (auditEventComputeHash sha256 right).hash.str := by
    intro sha256 collisionFree same
    rw [computed_str, computed_str] at same
    exact text (collisionFree (by simp) (by simp) (hexDigest_injective same))
  refine ⟨text, hashes, fun sha256 collisionFree shim ledger eventJSON named => ?_⟩
  have untouched := createdLedger_getElem? named (hashMember_key shim sha256 right)
    (hashes sha256 collisionFree).symm ledger
  simp only [AuditChaincode.queryByHash, Option.map_some, hashMember_key, Bind.bind, Except.bind,
    untouched]

theorem distinguished_iff {left right : AuditEvent} (terminated : left.Terminated)
    (otherTerminated : right.Terminated) :
    Distinguished left right ↔
      ¬Relation.Join (Relation.ReflTransGen Content.Move) left.content right.content := by
  have whole := snprintf_fits (hashText_length terminated)
  have otherWhole := snprintf_fits (hashText_length otherTerminated)
  rw [← Content.text_eq_iff, ← Content.hashText_content, ← Content.hashText_content]
  constructor
  · intro distinguished same
    exact distinguished.text (by rw [same])
  · intro different
    refine distinguished_of_text ?_
    rwa [whole, otherWhole]

def shellEvent (command cwd : String) : AuditEvent where
  eventType := .ofStr (ascii "execve")
  command := .ofStr (ascii command)
  user := .ofStr (ascii "root")
  pid := 7
  cwd := .ofStr (ascii cwd)
  timestamp := .ofStr (ascii "2024-01-01T00:00:00Z")
  returnCode := 0
  hash := .zero

def splitInCwd : AuditEvent := shellEvent "ls" "/tmp\",\"user\":\"root\",\"pid\":7,\"cwd\":\"/home"

def splitInCommand : AuditEvent :=
  shellEvent "ls\",\"user\":\"root\",\"pid\":7,\"cwd\":\"/tmp" "/home"

theorem splitEvents_terminated : splitInCwd.Terminated ∧ splitInCommand.Terminated :=
  ⟨⟨by decide +kernel, by decide +kernel, by decide +kernel, by decide +kernel, by decide +kernel,
    by decide +kernel⟩, ⟨by decide +kernel, by decide +kernel, by decide +kernel,
    by decide +kernel, by decide +kernel, by decide +kernel⟩⟩

theorem splitEvents_differ : ¬SameContent splitInCwd splitInCommand := by
  intro same
  exact absurd same.command (by decide +kernel)

theorem splitEvents_clash : ¬∀ left right : AuditEvent, left.Terminated → right.Terminated →
    ¬SameContent left right → Distinguished left right := by
  intro distinct
  obtain ⟨terminated, otherTerminated⟩ := splitEvents_terminated
  have distinguished := distinct _ _ terminated otherTerminated splitEvents_differ
  exact distinguished.text (by decide +kernel)

theorem splitEvents_distinguished : Distinguished splitInCwd splitInCommand ↔
    ¬Relation.Join (Relation.ReflTransGen Content.Move) splitInCwd.content
      splitInCommand.content :=
  distinguished_iff splitEvents_terminated.1 splitEvents_terminated.2

end BlockchainAuditor
