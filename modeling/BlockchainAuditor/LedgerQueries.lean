import BlockchainAuditor.Resubmission
import BlockchainAuditor.Library.JsonPrint

/-! What the queries answer after a sequence of `CreateEvent` invocations, and that the
answers fit together. -/

namespace BlockchainAuditor

open CStrings JavaScript KeyedPuts

def eventParameter (params : List Bytes) : Option JsString := (params.map decodeUtf8).head?

def createEvents (shim : Shim) (ledger : Ledger) (invocations : List (List Bytes)) : Ledger :=
  invocations.foldl (fun ledger params => createdLedger shim ledger (eventParameter params)) ledger

def hashString (eventJSON : Option JsString) : JsString :=
  match eventHash eventJSON with
  | some (some (.string text)) => text
  | _ => []

def stored (shim : Shim) (ledger : Ledger) : List (List Bytes) → List (JsString × JsString)
  | [] => []
  | params :: rest =>
    let eventJSON := eventParameter params
    match AuditChaincode.createEvent shim ledger eventJSON with
    | .error _ => stored shim ledger rest
    | .ok (_, after) =>
      (hashString eventJSON, eventJSON.getD (units "undefined")) :: stored shim after rest

/-- The strings that the shim takes as simple keys: a zero in front marks a composite key. -/
structure SimpleHash (hash : JsString) : Prop where
  wellFormed : isWellFormed hash = true
  nonempty : hash ≠ []
  notComposite : hash.head? ≠ some 0

def SimpleHashes (shim : Shim) (invocations : List (List Bytes)) : Prop :=
  ∀ params ∈ invocations, ∀ ledger answer,
    AuditChaincode.createEvent shim ledger (eventParameter params) = .ok answer →
      ∃ hash, eventHash (eventParameter params) = some (some (.string hash)) ∧ SimpleHash hash

variable {shim : Shim}

def eventPuts (events : List (JsString × JsString)) : List (StateKey × Bytes) :=
  events.map (Prod.map encodeUtf8 encodeUtf8)

theorem createEvent_string {ledger after : Ledger} {eventJSON : Option JsString} {payload : Bytes}
    {hash : JsString} (created : AuditChaincode.createEvent shim ledger eventJSON = .ok (payload, after))
    (named : eventHash eventJSON = some (some (.string hash))) (simple : SimpleHash hash) :
    after = ledger.insert (encodeUtf8 hash) (encodeUtf8 (eventJSON.getD (units "undefined"))) ∧
      ∃ event, parse (eventJSON.getD (units "undefined")) = some event := by
  obtain ⟨key, bytes, ⟨⟨event, found, parsed, got, _, keyed, _⟩, rfl⟩, rfl⟩ :=
    AuditChaincode.createEvent_ok_iff.mp created
  have same : some found = some (some (.string hash)) := by
    rw [← named, eventHash, parsed, Option.bind_some, got]
  obtain rfl := Option.some.inj same
  rw [stateKey_wellFormed simple.wellFormed] at keyed
  obtain rfl := Except.ok.inj keyed
  exact ⟨rfl, event, parsed⟩

theorem createEvents_eq {invocations : List (List Bytes)} (simple : SimpleHashes shim invocations)
    (ledger : Ledger) : createEvents shim ledger invocations =
      replay ledger (eventPuts (stored shim ledger invocations)) := by
  induction invocations generalizing ledger with
  | nil => rfl
  | cons params rest ih =>
      obtain ⟨here, others⟩ := List.forall_mem_cons.mp simple
      rw [createEvents, List.foldl_cons, ← createEvents, ih others, stored, createdLedger]
      cases created : AuditChaincode.createEvent shim ledger (eventParameter params) with
      | error message => rfl
      | ok answer =>
          obtain ⟨payload, after⟩ := answer
          obtain ⟨hash, named, simpleHash⟩ := here ledger _ created
          obtain ⟨rfl, _⟩ := createEvent_string created named simpleHash
          simp [eventPuts, hashString, named, replay]

structure StoredEvent (event : JsString × JsString) : Prop where
  simple : SimpleHash event.1
  decoded : decodeUtf8 (encodeUtf8 event.2) = event.2
  parsed : ∃ value, parse event.2 = some value

theorem eventParameter_decoded (params : List Bytes) :
    decodeUtf8 (encodeUtf8 ((eventParameter params).getD (units "undefined"))) =
      (eventParameter params).getD (units "undefined") := by
  cases params with
  | nil => exact (wellFormed_units (by decide)).decoded
  | cons argument others => exact WellFormed.decoded ⟨decodeFrom 0 argument, rfl⟩

theorem stored_events {invocations : List (List Bytes)} (simple : SimpleHashes shim invocations)
    (ledger : Ledger) : ∀ event ∈ stored shim ledger invocations, StoredEvent event := by
  induction invocations generalizing ledger with
  | nil => simp [stored]
  | cons params rest ih =>
      obtain ⟨here, others⟩ := List.forall_mem_cons.mp simple
      rw [stored]
      cases created : AuditChaincode.createEvent shim ledger (eventParameter params) with
      | error message => exact ih others ledger
      | ok answer =>
          obtain ⟨payload, after⟩ := answer
          obtain ⟨hash, named, simpleHash⟩ := here ledger _ created
          obtain ⟨_, value, parsed⟩ := createEvent_string created named simpleHash
          refine List.forall_mem_cons.mpr ⟨⟨?_, eventParameter_decoded params, value, parsed⟩,
            ih others after⟩
          simpa [hashString, named] using simpleHash

theorem SimpleHash.decoded {hash : JsString} (simple : SimpleHash hash) :
    decodeUtf8 (encodeUtf8 hash) = hash := wellFormed_eq simple.wellFormed

theorem SimpleHash.simpleKey {hash : JsString} (simple : SimpleHash hash) :
    (encodeUtf8 hash).head?.any (· ≠ 0) = true := by
  obtain ⟨wellFormed, nonempty, notComposite⟩ := simple
  have whole : ofChars (toChars hash) = hash := of_decide_eq_true wellFormed
  cases chars : toChars hash with
  | nil => exact absurd (by rw [← whole, chars]; rfl) nonempty
  | cons c rest =>
      cases bytes : String.utf8EncodeChar c with
      | nil =>
          have length := String.length_utf8EncodeChar c
          have positive := c.utf8Size_pos
          rw [bytes, List.length_nil] at length
          omega
      | cons byte more =>
          have notZero : byte ≠ 0 := by
            rintro rfl
            have code := (mem_utf8EncodeChar (by decide : (0 : UInt8) < 128) c).mp (by simp [bytes])
            have start : charUnits c = [0] := by simp [charUnits, code]
            rw [← whole, chars, ofChars, List.flatMap_cons, start] at notComposite
            exact notComposite rfl
          simp [encodeUtf8, chars, bytes, notZero]

section Events

variable {events : List (JsString × JsString)} (known : ∀ event ∈ events, StoredEvent event)

include known

theorem events_getElem? {hash : JsString} (wellFormed : isWellFormed hash = true) :
    (replay (∅ : Ledger) (eventPuts events))[encodeUtf8 hash]? =
      (lastPut hash events).map encodeUtf8 := by
  have apart : ∀ event ∈ events, encodeUtf8 event.1 = encodeUtf8 hash → event.1 = hash := by
    intro event member same
    rw [← (known event member).simple.decoded, same, wellFormed_eq wellFormed]
  rw [replay_getElem?, eventPuts, lastPut_map apart]
  simp

theorem events_entry {key : StateKey} {bytes : Bytes}
    (entry : (replay (∅ : Ledger) (eventPuts events))[key]? = some bytes) :
    ∃ hash text, key = encodeUtf8 hash ∧ bytes = encodeUtf8 text ∧
      lastPut hash events = some text ∧ StoredEvent (hash, text) := by
  have put := entry
  rw [replay_getElem?] at put
  simp only [Std.ExtTreeMap.getElem?_empty, Option.or_none] at put
  obtain ⟨event, member, written⟩ := List.mem_map.mp (lastPut_mem put)
  obtain ⟨rfl, rfl⟩ := Prod.mk.inj written
  rw [events_getElem? known (known event member).simple.wellFormed] at entry
  obtain ⟨text, last, same⟩ := Option.map_eq_some_iff.mp entry
  exact ⟨event.1, text, rfl, same.symm, last, known _ (lastPut_mem last)⟩

theorem query_events {hash : JsString} (wellFormed : isWellFormed hash = true) {bytes : Bytes} :
    AuditChaincode.queryByHash shim (replay ∅ (eventPuts events)) (some hash) = .ok bytes ↔
      ∃ text, lastPut hash events = some text ∧ bytes = encodeUtf8 text := by
  rw [AuditChaincode.queryByHash_ok_iff, Option.map_some]
  simp only [stateKey_wellFormed wellFormed, Except.ok.injEq, exists_eq_left',
    events_getElem? known wellFormed, Option.map_eq_some_iff]
  constructor
  · rintro ⟨⟨text, last, rfl⟩, _⟩
    exact ⟨text, last, rfl⟩
  · rintro ⟨text, last, rfl⟩
    refine ⟨⟨text, last, rfl⟩, fun empty => ?_⟩
    obtain ⟨value, parsed⟩ := (known _ (lastPut_mem last)).parsed
    rw [encodeUtf8_eq_nil.mp empty] at parsed
    have unread : parse [] = none := rfl
    exact Option.some_ne_none value (parsed.symm.trans unread)

theorem query_absent {hash : JsString} (wellFormed : isWellFormed hash = true)
    (absent : hash ∉ events.map Prod.fst) :
    AuditChaincode.queryByHash shim (replay ∅ (eventPuts events)) (some hash) =
      .error (units "event not found: " ++ hash) := by
  have missing : (replay (∅ : Ledger) (eventPuts events))[encodeUtf8 hash]? = none := by
    rw [events_getElem? known wellFormed, lastPut_eq_none.mpr absent, Option.map_none]
  rw [AuditChaincode.queryByHash, Option.map_some, stateKey_wellFormed wellFormed]
  simp [Bind.bind, Except.bind, missing]

/-- What `getAllEvents` goes through: the hashes in the order of their keys, and the events. -/
structure Listing (shim : Shim) (ledger : Ledger) (events : List (JsString × JsString))
    (entries : List (JsString × Json)) : Prop where
  ordered : entries.Pairwise fun before after =>
    compare (encodeUtf8 before.1) (encodeUtf8 after.1) = .lt
  hashes : ∀ hash, hash ∈ entries.map Prod.fst ↔ hash ∈ events.map Prod.fst
  parsed : ∀ entry ∈ entries, ∃ bytes, AuditChaincode.queryByHash shim ledger (some entry.1) =
    .ok bytes ∧ parse (decodeUtf8 bytes) = some entry.2
  answer : AuditChaincode.getAllEvents ledger =
    encodeUtf8 (Json.array (entries.map Prod.snd)).stringify

theorem simpleEntries_events : AuditChaincode.simpleEntries (replay ∅ (eventPuts events)) =
    (replay (∅ : Ledger) (eventPuts events)).toList := by
  refine List.filter_eq_self.mpr fun entry member => ?_
  obtain ⟨hash, text, same, _, _, event⟩ :=
    events_entry known (Std.ExtTreeMap.mem_toList_iff_getElem?_eq_some.mp member)
  rw [same]
  exact event.simple.simpleKey

theorem mem_events {entry : StateKey × Bytes}
    (member : entry ∈ (replay (∅ : Ledger) (eventPuts events)).toList) :
    ∃ hash text, entry = (encodeUtf8 hash, encodeUtf8 text) ∧ lastPut hash events = some text ∧
      StoredEvent (hash, text) := by
  obtain ⟨hash, text, sameKey, sameBytes, last, event⟩ :=
    events_entry known (Std.ExtTreeMap.mem_toList_iff_getElem?_eq_some.mp member)
  exact ⟨hash, text, Prod.ext sameKey sameBytes, last, event⟩

theorem events_mem {hash : JsString} (listed : hash ∈ events.map Prod.fst) :
    ∃ text, StoredEvent (hash, text) ∧
      (encodeUtf8 hash, encodeUtf8 text) ∈ (replay (∅ : Ledger) (eventPuts events)).toList := by
  cases last : lastPut hash events with
  | none => exact absurd listed (lastPut_eq_none.mp last)
  | some text =>
      have event := known _ (lastPut_mem last)
      refine ⟨text, event, Std.ExtTreeMap.mem_toList_iff_getElem?_eq_some.mpr ?_⟩
      rw [events_getElem? known event.simple.wellFormed, last, Option.map_some]

theorem events_listing : ∃ entries, Listing shim (replay ∅ (eventPuts events)) events entries := by
  let read : StateKey × Bytes → Option (JsString × Json) := fun entry =>
    (parse (decodeUtf8 entry.2)).map fun value => (decodeUtf8 entry.1, value)
  refine ⟨(replay ∅ (eventPuts events)).toList.filterMap read, ?_, ?_, ?_, ?_⟩
  · rw [List.pairwise_filterMap]
    refine Std.ExtTreeMap.ordered_keys_toList.imp_of_mem ?_
    intro before after inBefore inAfter below first firstRead second secondRead
    obtain ⟨hash, text, rfl, _, event⟩ := mem_events known inBefore
    obtain ⟨other, otherText, rfl, _, otherEvent⟩ := mem_events known inAfter
    obtain ⟨_, _, rfl⟩ := Option.map_eq_some_iff.mp firstRead
    obtain ⟨_, _, rfl⟩ := Option.map_eq_some_iff.mp secondRead
    dsimp only at below ⊢
    rwa [event.simple.decoded, otherEvent.simple.decoded]
  · intro hash
    constructor
    · intro member
      obtain ⟨entry, inside, rfl⟩ := List.mem_map.mp member
      obtain ⟨source, held, taken⟩ := List.mem_filterMap.mp inside
      obtain ⟨hash, text, rfl, last, event⟩ := mem_events known held
      obtain ⟨value, _, rfl⟩ := Option.map_eq_some_iff.mp taken
      dsimp only
      rw [event.simple.decoded]
      exact List.mem_map_of_mem (lastPut_mem last)
    · intro listed
      obtain ⟨text, event, held⟩ := events_mem known listed
      obtain ⟨value, parsed⟩ := event.parsed
      have taken : read (encodeUtf8 hash, encodeUtf8 text) = some (hash, value) := by
        simp only [read, event.decoded, event.simple.decoded, parsed, Option.map_some]
      exact List.mem_map_of_mem (f := Prod.fst) (List.mem_filterMap.mpr ⟨_, held, taken⟩)
  · intro entry member
    obtain ⟨source, held, taken⟩ := List.mem_filterMap.mp member
    obtain ⟨hash, text, rfl, last, event⟩ := mem_events known held
    obtain ⟨value, parsed, rfl⟩ := Option.map_eq_some_iff.mp taken
    refine ⟨encodeUtf8 text, ?_, parsed⟩
    rw [event.simple.decoded]
    exact (query_events known event.simple.wellFormed).mpr ⟨text, last, rfl⟩
  · rw [AuditChaincode.getAllEvents, simpleEntries_events known, List.map_filterMap]
    simp only [read, Option.map_map, Function.comp_def, Option.map_id']

end Events

def countAnswer (count : Nat) : Bytes :=
  encodeUtf8 (Json.object [(units "count", .number (.finite count))]).stringify

def listedKeys (ledger : Ledger) : List StateKey :=
  ((AuditChaincode.simpleEntries ledger).filter fun entry =>
    (parse (decodeUtf8 entry.2)).isSome).map Prod.fst

theorem mem_listedKeys {ledger : Ledger} {key : StateKey} : key ∈ listedKeys ledger ↔
    key.head?.any (· ≠ 0) = true ∧
      ∃ bytes, ledger[key]? = some bytes ∧ (parse (decodeUtf8 bytes)).isSome = true := by
  simp only [listedKeys, AuditChaincode.simpleEntries, List.mem_map, List.mem_filter]
  constructor
  · rintro ⟨⟨_, bytes⟩, ⟨⟨held, simple⟩, parsed⟩, rfl⟩
    exact ⟨simple, bytes, Std.ExtTreeMap.mem_toList_iff_getElem?_eq_some.mp held, parsed⟩
  · rintro ⟨simple, bytes, held, parsed⟩
    exact ⟨(key, bytes), ⟨⟨Std.ExtTreeMap.mem_toList_iff_getElem?_eq_some.mpr held, simple⟩, parsed⟩,
      rfl⟩

theorem listedKeys_nodup (ledger : Ledger) : (listedKeys ledger).Nodup := by
  have keys : (ledger.toList.map Prod.fst).Nodup :=
    List.pairwise_map.mpr (Std.ExtTreeMap.distinct_keys_toList.imp fun apart same =>
      apart (by rw [same, Std.ReflOrd.compare_self]))
  refine List.Nodup.sublist (List.Sublist.map Prod.fst ?_) keys
  exact List.filter_sublist.trans List.filter_sublist

def storedEvents (ledger : Ledger) : List Json :=
  (AuditChaincode.simpleEntries ledger).filterMap fun entry => parse (decodeUtf8 entry.2)

theorem getAllEvents_parsed (ledger : Ledger) :
    parse (decodeUtf8 (AuditChaincode.getAllEvents ledger)) =
      some (.array ((storedEvents ledger).map Json.reread)) := by
  have printable : PrintableItems (storedEvents ledger) := by
    rw [printableItems_iff]
    intro item member
    obtain ⟨_, _, parsed⟩ := List.mem_filterMap.mp member
    exact parse_value_printable parsed
  have read := parse_bytes (show (Json.array (storedEvents ledger)).Printable from printable)
  rwa [Json.reread, rereadItems_eq] at read

theorem storedEvents_length (ledger : Ledger) :
    (storedEvents ledger).length = (listedKeys ledger).length := by
  rw [storedEvents, List.length_filterMap_eq_countP, listedKeys, List.length_map,
    List.countP_eq_length_filter]

theorem getAllEvents_read (ledger : Ledger) :
    ∃ read, parse (decodeUtf8 (AuditChaincode.getAllEvents ledger)) = some (.array read) ∧
      read.length = (listedKeys ledger).length :=
  ⟨_, getAllEvents_parsed ledger, by rw [List.length_map, storedEvents_length]⟩

theorem getTotalCount_eq (ledger : Ledger) :
    AuditChaincode.getTotalCount ledger = .ok (countAnswer (listedKeys ledger).length) := by
  obtain ⟨read, parsed, length⟩ := getAllEvents_read ledger
  rw [AuditChaincode.getTotalCount, parsed]
  simp only [length, countAnswer]

theorem mem_listedKeys_replay {events : List (JsString × JsString)}
    (known : ∀ event ∈ events, StoredEvent event) {ledger : Ledger} {key : StateKey} :
    key ∈ listedKeys (replay ledger (eventPuts events)) ↔
      key ∈ listedKeys ledger ∨ key ∈ events.map fun event => encodeUtf8 event.1 := by
  have keys : (eventPuts events).map Prod.fst = events.map fun event => encodeUtf8 event.1 := by
    simp [eventPuts]
  rw [mem_listedKeys, mem_listedKeys, replay_getElem?]
  cases last : lastPut key (eventPuts events) with
  | none =>
      have absent := lastPut_eq_none.mp last
      rw [keys] at absent
      simp [absent]
  | some bytes =>
      obtain ⟨event, member, written⟩ := List.mem_map.mp (lastPut_mem last)
      obtain ⟨rfl, rfl⟩ := Prod.mk.inj written
      obtain ⟨simple, decoded, value, parsed⟩ := known event member
      constructor
      · exact fun _ => Or.inr (List.mem_map_of_mem member)
      · exact fun _ => ⟨simple.simpleKey, _, rfl, by rw [decoded, parsed]; rfl⟩

theorem length_listedKeys {events : List (JsString × JsString)}
    (known : ∀ event ∈ events, StoredEvent event) (ledger : Ledger) :
    (listedKeys (replay ledger (eventPuts events))).length =
      (listedKeys ledger ++ events.map fun event => encodeUtf8 event.1).dedup.length := by
  apply List.Perm.length_eq
  refine (List.perm_ext_iff_of_nodup (listedKeys_nodup _) (List.nodup_dedup _)).mpr fun key => ?_
  rw [mem_listedKeys_replay known, List.mem_dedup, List.mem_append]

theorem count_events {events : List (JsString × JsString)}
    (known : ∀ event ∈ events, StoredEvent event) :
    AuditChaincode.getTotalCount (replay ∅ (eventPuts events)) =
      .ok (countAnswer (events.map Prod.fst).dedup.length) := by
  have apart : Set.InjOn encodeUtf8 {hash | hash ∈ events.map Prod.fst} := by
    intro hash inHashes other inOthers same
    obtain ⟨event, member, rfl⟩ := List.mem_map.mp inHashes
    obtain ⟨second, otherMember, rfl⟩ := List.mem_map.mp inOthers
    rw [← (known event member).simple.decoded, same, (known second otherMember).simple.decoded]
  have nothing : listedKeys ∅ = [] := rfl
  have counted := distinct_append [] (events.map Prod.fst) apart
  simp only [List.map_map, Function.comp_def, List.dedup_nil, List.length_nil, Nat.zero_add,
    List.not_mem_nil, not_false_eq_true, decide_true, List.filter_true] at counted
  rw [getTotalCount_eq, length_listedKeys known, nothing, counted]

/-- The answers of the queries in terms of the events that were stored, in their order. -/
structure QueriesAgree (shim : Shim) (ledger : Ledger) (events : List (JsString × JsString)) :
    Prop where
  succeeds : ∀ hash, isWellFormed hash = true →
    ((∃ bytes, AuditChaincode.queryByHash shim ledger (some hash) = .ok bytes) ↔
      hash ∈ events.map Prod.fst)
  last : ∀ hash, isWellFormed hash = true → ∀ bytes,
    (AuditChaincode.queryByHash shim ledger (some hash) = .ok bytes ↔
      ∃ text, lastPut hash events = some text ∧ bytes = encodeUtf8 text)
  absent : ∀ hash, isWellFormed hash = true → hash ∉ events.map Prod.fst →
    AuditChaincode.queryByHash shim ledger (some hash) = .error (units "event not found: " ++ hash)
  listed : ∃ entries, Listing shim ledger events entries
  counted : AuditChaincode.getTotalCount ledger =
    .ok (countAnswer (events.map Prod.fst).dedup.length)

theorem events_agree {events : List (JsString × JsString)}
    (known : ∀ event ∈ events, StoredEvent event) :
    QueriesAgree shim (replay ∅ (eventPuts events)) events where
  succeeds := by
    intro hash wellFormed
    simp only [query_events known wellFormed]
    constructor
    · rintro ⟨_, text, last, _⟩
      exact List.mem_map_of_mem (f := Prod.fst) (lastPut_mem last)
    · intro listed
      cases last : lastPut hash events with
      | none => exact absurd listed (lastPut_eq_none.mp last)
      | some text => exact ⟨_, text, rfl, rfl⟩
  last := fun _ wellFormed _ => query_events known wellFormed
  absent := fun _ wellFormed absent => query_absent known wellFormed absent
  listed := events_listing known
  counted := count_events known

theorem queries_agree {invocations : List (List Bytes)} (simple : SimpleHashes shim invocations) :
    QueriesAgree shim (createEvents shim ∅ invocations) (stored shim ∅ invocations) := by
  rw [createEvents_eq simple]
  exact events_agree (stored_events simple ∅)

theorem namedEvent_simple {name : String} (listed : name = "0a" ∨ name = "0b") :
    eventParameter [encodeUtf8 (namedEvent name)] = some (namedEvent name) ∧
      SimpleHash (units name) := by
  have wellFormed : isWellFormed (namedEvent name) = true := by
    rcases listed with rfl | rfl <;> decide +kernel
  constructor
  · rw [eventParameter, List.map_singleton, List.head?_cons, wellFormed_eq wellFormed]
  · rcases listed with rfl | rfl <;> exact ⟨by decide +kernel, by decide, by decide⟩

theorem namedEvents_agree : QueriesAgree stringsOnly
    (createEvents stringsOnly ∅ [[encodeUtf8 (namedEvent "0a")], [],
      [encodeUtf8 (namedEvent "0b")], [encodeUtf8 (namedEvent "0a")]])
    (stored stringsOnly ∅ [[encodeUtf8 (namedEvent "0a")], [],
      [encodeUtf8 (namedEvent "0b")], [encodeUtf8 (namedEvent "0a")]]) := by
  refine queries_agree ?_
  have named : ∀ name, (name = "0a" ∨ name = "0b") → ∃ hash,
      eventHash (eventParameter [encodeUtf8 (namedEvent name)]) = some (some (.string hash)) ∧
        SimpleHash hash := by
    intro name listed
    obtain ⟨decoded, simple⟩ := namedEvent_simple listed
    exact ⟨units name, by rw [decoded, namedEvent_hash listed], simple⟩
  intro params member ledger answer created
  simp only [List.mem_cons, List.not_mem_nil, or_false] at member
  rcases member with rfl | rfl | rfl | rfl
  · exact named "0a" (Or.inl rfl)
  · have unread : parse (units "undefined") = none := by
      rw [← Option.isNone_iff_eq_none]
      decide +kernel
    simp [AuditChaincode.createEvent, eventParameter, unread] at created
  · exact named "0b" (Or.inr rfl)
  · exact named "0a" (Or.inl rfl)

end BlockchainAuditor
