import BlockchainAuditor.LedgerHistory
import BlockchainAuditor.Library.KeyedPuts

/-! A run of the ledger as a sequence of puts, and runs that submit the same events in
another order or more often. -/

namespace BlockchainAuditor

open CStrings JavaScript KeyedPuts

def eventHash (eventJSON : Option JsString) : Option JsValue :=
  (parse (eventJSON.getD (units "undefined"))).bind (·.get "hash")

def eventPut (shim : Shim) (eventJSON : Option JsString) : Option (StateKey × Bytes) :=
  match eventHash eventJSON with
  | none => none
  | some hash =>
    if truthy hash = false then none
    else match shim.stateKey hash, shim.bufferFrom hash with
      | .ok key, .ok _ => some (key, encodeUtf8 (eventJSON.getD (units "undefined")))
      | _, _ => none

variable {shim : Shim}

theorem eventPut_eq_some {eventJSON : Option JsString} {key : StateKey} {bytes : Bytes} :
    eventPut shim eventJSON = some (key, bytes) ↔ ∃ payload, Puts shim eventJSON key bytes payload := by
  constructor
  · intro put
    unfold eventPut at put
    split at put
    · simp at put
    · rename_i hash found
      split at put
      · simp at put
      · rename_i present
        split at put
        · rename_i other payload keyed buffered
          obtain ⟨rfl, rfl⟩ := Prod.mk.inj (Option.some.inj put)
          obtain ⟨event, parsed, got⟩ := Option.bind_eq_some_iff.mp found
          exact ⟨payload, ⟨event, hash, parsed, got, by simpa using present, keyed, buffered⟩, rfl⟩
        · simp at put
  · rintro ⟨payload, ⟨event, hash, parsed, got, present, keyed, buffered⟩, rfl⟩
    have found : eventHash eventJSON = some hash := by simp [eventHash, parsed, got]
    simp [eventPut, found, present, keyed, buffered]

theorem createdLedger_eq (ledger : Ledger) (eventJSON : Option JsString) :
    createdLedger shim ledger eventJSON = replay ledger (eventPut shim eventJSON).toList := by
  cases put : eventPut shim eventJSON with
  | some keyed =>
      obtain ⟨payload, puts⟩ := eventPut_eq_some.mp put
      exact createdLedger_puts puts ledger
  | none =>
      rcases createdLedger_cases shim ledger eventJSON with same | ⟨key, bytes, payload, puts, _⟩
      · exact same
      · simp [eventPut_eq_some.mpr ⟨payload, puts⟩] at put

def runPuts (shim : Shim) (operations : List Operation) : List (StateKey × Bytes) :=
  (operations.filterMap Operation.eventJSON).filterMap (eventPut shim)

theorem run_eq_replay (ledger : Ledger) (operations : List Operation) :
    run shim ledger operations = replay ledger (runPuts shim operations) := by
  induction operations generalizing ledger with
  | nil => rfl
  | cons operation operations ih =>
      rw [run, List.foldl_cons, ← run, ih, step_eq, runPuts, runPuts]
      cases creates : operation.eventJSON with
      | none => simp [creates]
      | some eventJSON =>
          simp only [createdLedger_eq, List.filterMap_cons, creates]
          cases put : eventPut shim eventJSON <;> simp [replay]

def Shim.Separates (shim : Shim) (events : List (Option JsString)) : Prop :=
  ∀ first ∈ events, ∀ second ∈ events, ∀ hash other key,
    eventHash first = some hash → eventHash second = some other →
    shim.stateKey hash = .ok key → shim.stateKey other = .ok key → hash = other

theorem wellFormed_eq {text : JsString} (wellFormed : isWellFormed text = true) :
    decodeUtf8 (encodeUtf8 text) = text :=
  (wellFormed_iff.mpr (of_decide_eq_true wellFormed)).decoded

theorem stateKey_wellFormed {text : JsString} (wellFormed : isWellFormed text = true) :
    shim.stateKey (some (.string text)) = .ok (encodeUtf8 text) := by
  simp [Shim.stateKey, wellFormed]

theorem wellFormed_separates {events : List (Option JsString)}
    (wellFormed : ∀ event ∈ events, ∀ hash, eventHash event = some hash →
      ∃ text, hash = some (.string text) ∧ isWellFormed text = true) : shim.Separates events := by
  intro first inFirst second inSecond hash other key firstHash secondHash keyed otherKeyed
  obtain ⟨text, rfl, textFormed⟩ := wellFormed first inFirst hash firstHash
  obtain ⟨otherText, rfl, otherFormed⟩ := wellFormed second inSecond other secondHash
  rw [stateKey_wellFormed textFormed] at keyed
  rw [stateKey_wellFormed otherFormed] at otherKeyed
  have bytes : encodeUtf8 text = encodeUtf8 otherText :=
    Except.ok.inj (keyed.trans otherKeyed.symm)
  rw [← wellFormed_eq textFormed, bytes, wellFormed_eq otherFormed]

theorem runPuts_consistent {operations : List Operation}
    (determined : ∀ first ∈ operations.filterMap Operation.eventJSON,
      ∀ second ∈ operations.filterMap Operation.eventJSON, ∀ hash,
        eventHash first = some hash → eventHash second = some hash → first = second)
    (separates : shim.Separates (operations.filterMap Operation.eventJSON)) :
    Consistent (runPuts shim operations) := by
  intro first inFirst second inSecond sameKey
  obtain ⟨event, member, put⟩ := List.mem_filterMap.mp inFirst
  obtain ⟨other, otherMember, otherPut⟩ := List.mem_filterMap.mp inSecond
  obtain ⟨_, ⟨parsed, hash, parses, got, _, keyed, _⟩, bytes⟩ := eventPut_eq_some.mp put
  obtain ⟨_, ⟨otherParsed, otherHash, otherParses, otherGot, _, otherKeyed, _⟩, otherBytes⟩ :=
    eventPut_eq_some.mp otherPut
  have found : eventHash event = some hash := by simp [eventHash, parses, got]
  have otherFound : eventHash other = some otherHash := by simp [eventHash, otherParses, otherGot]
  rw [← sameKey] at otherKeyed
  obtain rfl := separates event member other otherMember hash otherHash first.1 found otherFound
    keyed otherKeyed
  rw [bytes, otherBytes, determined event member other otherMember hash found otherFound]

theorem resubmission_harmless {left right : List Operation}
    (sameEvents : ∀ event, event ∈ left.filterMap Operation.eventJSON ↔
      event ∈ right.filterMap Operation.eventJSON)
    (determined : ∀ first ∈ left.filterMap Operation.eventJSON,
      ∀ second ∈ left.filterMap Operation.eventJSON, ∀ hash,
        eventHash first = some hash → eventHash second = some hash → first = second)
    (separates : shim.Separates (left.filterMap Operation.eventJSON)) (ledger : Ledger) :
    run shim ledger left = run shim ledger right ∧
      (∀ hash, AuditChaincode.queryByHash shim (run shim ledger left) hash =
        AuditChaincode.queryByHash shim (run shim ledger right) hash) ∧
      AuditChaincode.getAllEvents (run shim ledger left) =
        AuditChaincode.getAllEvents (run shim ledger right) ∧
      AuditChaincode.getTotalCount (run shim ledger left) =
        AuditChaincode.getTotalCount (run shim ledger right) := by
  have samePuts : ∀ put, put ∈ runPuts shim left ↔ put ∈ runPuts shim right := by
    intro put
    simp only [runPuts, List.mem_filterMap (f := eventPut shim), sameEvents]
  have ledgers : run shim ledger left = run shim ledger right := by
    rw [run_eq_replay, run_eq_replay]
    exact replay_congr (runPuts_consistent determined separates) samePuts ledger
  simp [ledgers]

def namedEvent (hash : String) : JsString := units "\x7b\"hash\":\"" ++ units hash ++ units "\"\x7d"

def stores (hash : String) (submission : Submission) : Operation :=
  .invoke (units "CreateEvent") [namedEvent hash] submission

theorem namedEvent_hash {name : String} (listed : name = "0a" ∨ name = "0b") :
    eventHash (some (namedEvent name)) = some (some (.string (units name))) := by
  have read : (eventHash (some (namedEvent name))).any (isText · (units name)) = true := by
    rcases listed with rfl | rfl <;> decide +kernel
  obtain ⟨hash, found, same⟩ := (Option.any_eq_true _ _).mp read
  rw [found, isText_eq same]

theorem stores_eventJSON (name : String) (submission : Submission)
    (committed : submission.committed = true) :
    (stores name submission).eventJSON = some (some (namedEvent name)) := by
  rw [stores, Operation.eventJSON, if_pos ⟨rfl, committed⟩]
  rfl

theorem namedEvents_named {event : Option JsString}
    (member : event ∈ [some (namedEvent "0a"), some (namedEvent "0b"), some (namedEvent "0a")]) :
    ∃ name, (name = "0a" ∨ name = "0b") ∧ event = some (namedEvent name) := by
  simp only [List.mem_cons, List.not_mem_nil, or_false] at member
  rcases member with rfl | rfl | rfl
  · exact ⟨"0a", Or.inl rfl, rfl⟩
  · exact ⟨"0b", Or.inr rfl, rfl⟩
  · exact ⟨"0a", Or.inl rfl, rfl⟩

theorem retriedEvents_agree :
    run stringsOnly ∅ [stores "0a" (.unacknowledged []), stores "0b" .acknowledged,
        stores "0a" .acknowledged] =
      run stringsOnly ∅ [stores "0b" .acknowledged, stores "0a" .acknowledged] := by
  have retried : [stores "0a" (.unacknowledged []), stores "0b" .acknowledged,
      stores "0a" .acknowledged].filterMap Operation.eventJSON =
        [some (namedEvent "0a"), some (namedEvent "0b"), some (namedEvent "0a")] := by
    rw [List.filterMap_cons_some (stores_eventJSON _ _ rfl),
      List.filterMap_cons_some (stores_eventJSON _ _ rfl),
      List.filterMap_cons_some (stores_eventJSON _ _ rfl), List.filterMap_nil]
  have ordered : [stores "0b" .acknowledged, stores "0a" .acknowledged].filterMap
      Operation.eventJSON = [some (namedEvent "0b"), some (namedEvent "0a")] := by
    rw [List.filterMap_cons_some (stores_eventJSON _ _ rfl),
      List.filterMap_cons_some (stores_eventJSON _ _ rfl), List.filterMap_nil]
  refine (resubmission_harmless ?_ ?_ ?_ ∅).1
  · intro event
    rw [retried, ordered]
    simp only [List.mem_cons, List.not_mem_nil, or_false]
    tauto
  · rw [retried]
    intro first inFirst second inSecond hash firstHash secondHash
    obtain ⟨name, listed, rfl⟩ := namedEvents_named inFirst
    obtain ⟨other, otherListed, rfl⟩ := namedEvents_named inSecond
    rw [namedEvent_hash listed] at firstHash
    rw [namedEvent_hash otherListed, ← firstHash, Option.some.injEq, Option.some.injEq,
      Json.string.injEq] at secondHash
    rcases listed with rfl | rfl <;> rcases otherListed with rfl | rfl
    · rfl
    · exact absurd secondHash (by decide)
    · exact absurd secondHash (by decide)
    · rfl
  · rw [retried]
    refine wellFormed_separates fun event member hash found => ?_
    obtain ⟨name, listed, rfl⟩ := namedEvents_named member
    rw [namedEvent_hash listed, Option.some.injEq] at found
    exact ⟨units name, found.symm, by rcases listed with rfl | rfl <;> decide +kernel⟩

end BlockchainAuditor
