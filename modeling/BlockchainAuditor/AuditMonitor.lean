import BlockchainAuditor.AuditRecords
import BlockchainAuditor.LedgerQueries
import BlockchainAuditor.Verification

/-! The loop of `audit_monitor_start`, and how many entries of the ledger the events that
it dispatches take. -/

namespace BlockchainAuditor

open CStrings CharArray JavaScript KeyedPuts

inductive RecordType
  | execve
  | syscall
  | path
  | userLogin
  | anomAbend
  | other
  deriving DecidableEq

inductive Reply
  | received (type : RecordType) (message : Bytes)
  | interrupted
  | failed

/-- A turn of the loop: `am->running` at its start, the reply, and the time and the system
while the record is handled. -/
structure Turn where
  running : Bool
  reply : Reply
  time : Int
  host : Host

section Loop

variable (localtime : Int → LocalTime) (sha256 : Bytes → Digest) (callback : Bool)

def handleRecord (host : Host) (type : RecordType) (message : Bytes) : Option (List AuditEvent) :=
  match type with
  | .execve => parseExecve host sha256 callback message
  | .syscall => parseSyscall host sha256 callback message
  | .path => parsePath host sha256 callback message
  | .userLogin => parseUserLogin host sha256 callback message
  | .anomAbend => parseAnomAbend host sha256 callback message
  | .other => some []

/-- The events dispatched in these turns, or nothing when an access is outside an array. -/
def monitorLoop : List Turn → Option (List AuditEvent)
  | [] => some []
  | turn :: rest =>
    if turn.running then
      match turn.reply with
      | .received type message => do
        let host := { turn.host with localTime := localtime turn.time }
        let events ← handleRecord sha256 callback host type message
        return events ++ (← monitorLoop rest)
      | .interrupted => monitorLoop rest
      | .failed => some []
    else some []

def auditMonitorStart (fd : Int32) (turns : List Turn) : Option (List AuditEvent) :=
  if fd < 0 then some [] else monitorLoop localtime sha256 callback turns

end Loop

variable {localtime : Int → LocalTime} {sha256 : Bytes → Digest} {callback : Bool}

theorem handleRecord_completes (host : Host) (type : RecordType) (message : Bytes) :
    Completes (handleRecord sha256 callback host type message) (AllSealed sha256) := by
  cases type with
  | execve => exact parseExecve_completes
  | syscall => exact parseSyscall_completes
  | path => exact parsePath_completes
  | userLogin => exact parseUserLogin_completes
  | anomAbend => exact parseAnomAbend_completes
  | other => exact completes_some (by simp [AllSealed])

theorem monitorLoop_completes (turns : List Turn) :
    Completes (monitorLoop localtime sha256 callback turns) (AllSealed sha256) := by
  have none : AllSealed sha256 [] := by simp [AllSealed]
  induction turns with
  | nil => exact completes_some none
  | cons turn rest ih =>
      rw [monitorLoop]
      split
      · cases turn.reply with
        | received type message =>
            refine (handleRecord_completes _ type message).bind fun events sealed => ?_
            refine ih.bind fun later laterSealed => completes_pure ?_
            exact List.forall_mem_append.mpr ⟨sealed, laterSealed⟩
        | interrupted => exact ih
        | failed => exact completes_some none
      · exact completes_some none

theorem auditMonitorStart_completes (fd : Int32) (turns : List Turn) :
    Completes (auditMonitorStart localtime sha256 callback fd turns) (AllSealed sha256) := by
  unfold auditMonitorStart
  split
  · exact completes_some (by simp [AllSealed])
  · exact monitorLoop_completes turns

theorem hexUnits_simple (digest : Digest) : SimpleHash (hexUnits digest) where
  wellFormed := by
    rw [← decodeUtf8_hexDigest]
    simp [isWellFormed, decodeUtf8, toChars_ofChars]
  nonempty := by
    intro empty
    have length := hexDigest_length digest
    rw [hexUnits, List.map_eq_nil_iff] at empty
    simp [empty] at length
  notComposite := by
    intro zero
    obtain ⟨byte, member, same⟩ := List.mem_map.mp (List.mem_of_mem_head? zero)
    obtain rfl : byte = 0 := by
      rw [← UInt8.toNat_inj]
      rw [← UInt16.toNat_inj, UInt8.toNat_toUInt16] at same
      exact same
    exact hexDigest_nulFree digest member

def StoredBy (ev : AuditEvent) (params : List Bytes) : Prop :=
  eventHash (eventParameter params) = some (some (.string (decodeUtf8 ev.hash.str)))

variable {shim : Shim} {events : List AuditEvent} {invocations : List (List Bytes)}

theorem createEvent_hash {eventJSON : Option JsString} {digest : Digest}
    (named : eventHash eventJSON = some (some (.string (hexUnits digest)))) (ledger : Ledger) :
    ∃ answer, AuditChaincode.createEvent shim ledger eventJSON = .ok answer := by
  obtain ⟨event, parsed, got⟩ := Option.bind_eq_some_iff.mp named
  have simple := hexUnits_simple digest
  have present : truthy (some (.string (hexUnits digest))) = true := by
    simpa [truthy] using simple.nonempty
  have puts : Puts shim eventJSON (encodeUtf8 (hexUnits digest))
      (encodeUtf8 (eventJSON.getD (units "undefined"))) (encodeUtf8 (hexUnits digest)) :=
    ⟨⟨event, _, parsed, got, present, stateKey_wellFormed simple.wellFormed, rfl⟩, rfl⟩
  exact ⟨_, AuditChaincode.createEvent_ok_iff.mpr ⟨_, _, puts, rfl⟩⟩

theorem storedBy_named (sealed : AllSealed sha256 events)
    (storedBy : List.Forall₂ StoredBy events invocations) :
    List.Forall₂ (fun ev params => eventHash (eventParameter params) =
      some (some (.string (hexUnits (sha256 (hashText ev)))))) events invocations := by
  induction storedBy with
  | nil => exact .nil
  | @cons ev params others rest here _ ih =>
      obtain ⟨wellSealed, othersSealed⟩ := List.forall_mem_cons.mp sealed
      refine .cons ?_ (ih othersSealed)
      rw [here, wellSealed.hash, decodeUtf8_hexDigest]

theorem stored_hashes (sealed : AllSealed sha256 events)
    (storedBy : List.Forall₂ StoredBy events invocations) (ledger : Ledger) :
    SimpleHashes shim invocations ∧ (stored shim ledger invocations).map Prod.fst =
      events.map fun ev => hexUnits (sha256 (hashText ev)) := by
  have named := storedBy_named sealed storedBy
  clear storedBy sealed
  induction named generalizing ledger with
  | nil => exact ⟨by simp [SimpleHashes], rfl⟩
  | @cons ev params others rest here _ ih =>
      have created : ∃ answer, AuditChaincode.createEvent shim ledger (eventParameter params) =
        .ok answer := createEvent_hash here ledger
      obtain ⟨⟨payload, after⟩, created⟩ := created
      constructor
      · exact List.forall_mem_cons.mpr ⟨fun _ _ _ => ⟨_, here, hexUnits_simple _⟩, (ih ledger).1⟩
      · rw [stored, created]
        simp [hashString, here, (ih after).2]

/-- The texts of the events under whose digests the ledger lists nothing, each once. -/
def freshTexts (sha256 : Bytes → Digest) (events : List AuditEvent) (ledger : Ledger) :
    List Bytes :=
  (events.map hashText).dedup.filter fun text => hexDigest (sha256 text) ∉ listedKeys ledger

structure OccurrencesCounted (sha256 : Bytes → Digest) (events : List AuditEvent) : Prop where
  hash : ∀ left ∈ events, ∀ right ∈ events,
    (left.hash.str = right.hash.str ↔ hashText left = hashText right)
  content : ∀ left ∈ events, ∀ right ∈ events, Unquoted left → Unquoted right →
    (left.hash.str = right.hash.str ↔ SameContent left right)
  count : ∀ (shim : Shim) (ledger : Ledger) (invocations : List (List Bytes)),
    List.Forall₂ StoredBy events invocations → ∃ before,
      AuditChaincode.getTotalCount ledger = .ok (countAnswer before) ∧
      AuditChaincode.getTotalCount (createEvents shim ledger invocations) =
        .ok (countAnswer (before + (freshTexts sha256 events ledger).length))

theorem sealed_count (sealed : AllSealed sha256 events)
    (collisionFree : Set.InjOn sha256 {text | text ∈ events.map hashText}) (ledger : Ledger)
    (storedBy : List.Forall₂ StoredBy events invocations) :
    AuditChaincode.getTotalCount (createEvents shim ledger invocations) =
      .ok (countAnswer ((listedKeys ledger).length + (freshTexts sha256 events ledger).length)) := by
  have laterStored : SimpleHashes shim invocations ∧ _ := stored_hashes sealed storedBy ledger
  obtain ⟨simple, hashes⟩ := laterStored
  have apart : Set.InjOn (fun text => hexDigest (sha256 text)) {text | text ∈ events.map hashText} :=
    fun first inFirst second inSecond same =>
      collisionFree inFirst inSecond (hexDigest_injective same)
  have keys : ((stored shim ledger invocations).map fun event => encodeUtf8 event.1) =
      (events.map hashText).map fun text => hexDigest (sha256 text) := by
    have encoded := congrArg (List.map encodeUtf8) hashes
    rw [List.map_map, List.map_map] at encoded
    rw [List.map_map]
    refine encoded.trans (List.map_congr_left fun ev _ => ?_)
    change encodeUtf8 (hexUnits _) = _
    rw [← decodeUtf8_hexDigest, encodeUtf8_decodeUtf8 (validUtf8_ascii (hexDigest_ascii _))]
    rfl
  rw [getTotalCount_eq, createEvents_eq simple, length_listedKeys (stored_events simple ledger),
    keys, distinct_append _ _ apart, (listedKeys_nodup ledger).dedup, freshTexts]
  simp only [decide_not]

theorem occurrences_counted (localtime : Int → LocalTime) (sha256 : Bytes → Digest)
    (callback : Bool) (fd : Int32) (turns : List Turn) :
    ∃ events, auditMonitorStart localtime sha256 callback fd turns = some events ∧
      (Set.InjOn sha256 {text | text ∈ events.map hashText} → OccurrencesCounted sha256 events) := by
  have completes : Completes (auditMonitorStart localtime sha256 callback fd turns)
    (AllSealed sha256) := auditMonitorStart_completes fd turns
  obtain ⟨events, ran, sealed⟩ := completes
  refine ⟨events, ran, fun collisionFree => ?_⟩
  have hash : ∀ left ∈ events, ∀ right ∈ events,
      (left.hash.str = right.hash.str ↔ hashText left = hashText right) := by
    intro left inLeft right inRight
    rw [(sealed left inLeft).hash, (sealed right inRight).hash]
    constructor
    · intro same
      exact collisionFree (List.mem_map_of_mem inLeft) (List.mem_map_of_mem inRight)
        (hexDigest_injective same)
    · intro same
      rw [same]
  refine ⟨hash, ?_, ?_⟩
  · intro left inLeft right inRight unquoted otherUnquoted
    rw [hash left inLeft right inRight]
    exact ⟨hashText_injective unquoted otherUnquoted, hashText_congr⟩
  · intro shim ledger invocations storedBy
    exact ⟨_, getTotalCount_eq ledger, sealed_count sealed collisionFree ledger storedBy⟩

theorem posted_storedBy {ev : AuditEvent} (terminated : ev.Terminated) (valid : ev.ValidUtf8)
    (plain : ev.Plain) : StoredBy ev [auditEventToJson ev jsonEventMax] := by
  have parsed := parse_plain valid plain
  rw [StoredBy, eventParameter, List.map_singleton, List.head?_cons, auditEventToJson_eq terminated,
    eventHash, Option.getD_some, parsed, Option.bind_some, (carries_members ev).hash]

def writeMessage (serial : String) : Bytes :=
  ascii "audit(1704106800.042:" ++ ascii serial ++ ascii "): arch=c000003e syscall=1 success=yes " ++
    ascii "exit=5 ppid=1 pid=42 auid=0 uid=0 comm=\"cat\" exe=\"/usr/bin/cat\""

def writeTurn (serial : String) : Turn where
  running := true
  reply := .received .syscall (writeMessage serial)
  time := 1704106800
  host := noonHost

def zeroDigest : Bytes → Digest := fun _ => Vector.replicate 32 0

def isPlain (text : Bytes) : Bool := isAscii text && !text.any mustEscape

def agree : List AuditEvent → List AuditEvent → Bool
  | [left], [right] =>
    left.strings.all isPlain && right.strings.all isPlain && hashText left = hashText right
  | _, _ => false

theorem agree_iff {lefts rights : List AuditEvent} : agree lefts rights = true ↔
    ∃ left right, lefts = [left] ∧ rights = [right] ∧ left.strings.all isPlain = true ∧
      right.strings.all isPlain = true ∧ hashText left = hashText right := by
  unfold agree
  split
  · simp [and_assoc]
  · rename_i other
    simp only [Bool.false_eq_true, false_iff, not_exists]
    rintro left right ⟨rfl, rfl, _⟩
    exact other left right rfl rfl

theorem plain_storedBy {ev : AuditEvent} (sealed : WellSealed zeroDigest ev)
    (plain : ev.strings.all isPlain = true) : StoredBy ev [auditEventToJson ev jsonEventMax] := by
  have strings : ∀ text ∈ ev.strings, isAscii text = true ∧ text.any mustEscape = false := by
    simpa [isPlain] using plain
  apply posted_storedBy sealed.terminated
  · exact fun text member => validUtf8_ascii (strings text member).1
  · exact fun text member => (strings text member).2

theorem writeTurns_events : ∃ left right, auditMonitorStart (fun _ => noon) zeroDigest true 3
      [writeTurn "917", writeTurn "918"] = some [left, right] ∧
    hashText left = hashText right ∧ left.hash.str = right.hash.str ∧
    List.Forall₂ StoredBy [left, right]
      [[auditEventToJson left jsonEventMax], [auditEventToJson right jsonEventMax]] := by
  have checked : ((parseSyscall noonHost zeroDigest true (writeMessage "917")).any fun lefts =>
      (parseSyscall noonHost zeroDigest true (writeMessage "918")).any fun rights =>
        agree lefts rights) = true := by decide +kernel
  obtain ⟨lefts, first, checked⟩ := (Option.any_eq_true _ _).mp checked
  obtain ⟨rights, second, agrees⟩ := (Option.any_eq_true _ _).mp checked
  obtain ⟨left, right, rfl, rfl, plain, otherPlain, sameText⟩ := agree_iff.mp agrees
  have ran : auditMonitorStart (fun _ => noon) zeroDigest true 3
      [writeTurn "917", writeTurn "918"] = some [left, right] := by
    have ranFirst : handleRecord zeroDigest true { noonHost with localTime := noon } .syscall
      (writeMessage "917") = some [left] := first
    have ranSecond : handleRecord zeroDigest true { noonHost with localTime := noon } .syscall
      (writeMessage "918") = some [right] := second
    rw [auditMonitorStart, if_neg (by decide)]
    simp [monitorLoop, writeTurn, ranFirst, ranSecond]
  have completes : Completes (auditMonitorStart (fun _ => noon) zeroDigest true 3
      [writeTurn "917", writeTurn "918"]) (AllSealed zeroDigest) := auditMonitorStart_completes _ _
  have sealed := completes.holds ran
  have leftSealed := sealed left (by simp)
  have rightSealed := sealed right (by simp)
  refine ⟨left, right, ran, sameText, ?_, ?_⟩
  · rw [leftSealed.hash, rightSealed.hash, sameText]
  · exact .cons (plain_storedBy leftSealed plain) (.cons (plain_storedBy rightSealed otherPlain) .nil)

theorem sameText_collisionFree {left right : AuditEvent} (same : hashText left = hashText right) :
    Set.InjOn zeroDigest {text | text ∈ [left, right].map hashText} := by
  intro text inTexts other inOthers _
  simp only [List.map_cons, List.map_nil, List.mem_cons, List.not_mem_nil, or_false, same, or_self,
    Set.mem_ofPred_eq] at inTexts inOthers
  rw [inTexts, inOthers]

theorem repeatedWrites_merge : ¬∀ (localtime : Int → LocalTime) (sha256 : Bytes → Digest)
    (callback : Bool) (fd : Int32) (turns : List Turn) (events : List AuditEvent),
    (turns.map Turn.time).Pairwise (· ≤ ·) →
    auditMonitorStart localtime sha256 callback fd turns = some events →
    Set.InjOn sha256 {text | text ∈ events.map hashText} →
    ∀ (shim : Shim) (ledger : Ledger) (invocations : List (List Bytes)),
      List.Forall₂ StoredBy events invocations →
      events.Pairwise (fun left right => left.hash.str ≠ right.hash.str) ∧ ∃ before,
        AuditChaincode.getTotalCount ledger = .ok (countAnswer before) ∧
        AuditChaincode.getTotalCount (createEvents shim ledger invocations) =
          .ok (countAnswer (before + events.length)) := by
  intro distinct
  obtain ⟨left, right, ran, sameText, sameHash, storedBy⟩ := writeTurns_events
  obtain ⟨different, _⟩ := distinct _ _ _ _ _ _ (by simp [writeTurn]) ran
    (sameText_collisionFree sameText) stringsOnly ∅ _ storedBy
  simp [sameHash] at different

theorem repeatedWrites_counted : ∃ left right, auditMonitorStart (fun _ => noon) zeroDigest true 3
    [writeTurn "917", writeTurn "918"] = some [left, right] ∧
      OccurrencesCounted zeroDigest [left, right] := by
  obtain ⟨left, right, ran, sameText, _⟩ := writeTurns_events
  obtain ⟨events, again, counted⟩ := occurrences_counted (fun _ => noon) zeroDigest true 3
    [writeTurn "917", writeTurn "918"]
  obtain rfl : [left, right] = events := Option.some.inj (ran.symm.trans again)
  exact ⟨left, right, ran, counted (sameText_collisionFree sameText)⟩

end BlockchainAuditor
