import BlockchainAuditor.Library.JsonRoundTrip
import BlockchainAuditor.Library.Transitions
import BlockchainAuditor.EventDigests
import BlockchainAuditor.LedgerEntries

/-! What the gateway is for: a map from keys to events. Whatever requests it is sent, and
whatever other clients of the contract do meanwhile, its answers are those of the map. -/

namespace BlockchainAuditor

open CStrings JavaScript KeyedPuts Transitions

inductive Resource
  | events
  | event (hash : JsString)
  | verify
  | status

/-- Whether `evaluateTransaction` hands on what the contract answers. -/
inductive Evaluation
  | answers
  | fails (message : JsString)

def Evaluation.hands {α : Type} (evaluation : Evaluation) (result : Throws α) : Throws α :=
  match evaluation with
  | .answers => result
  | .fails message => .error message

/-- The health of the Fabric connection is that at the time of the request. `app.get` serves
`HEAD` requests too. -/
inductive Request
  | post (online : Bool) (body : Bytes) (submission : Submission)
  | get (online : Bool) (evaluation : Evaluation) (head : Bool) (resource : Resource)

/-- The middleware answers errors with a page of its own. -/
inductive Answer
  | page (status : Nat)
  | json (response : Response)

def methodName (head : Bool) : JsString := units (if head then "HEAD" else "GET")

section Routes

variable (shim : Shim) (sha256 : Bytes → Digest)

def readResource (online : Bool) (evaluation : Evaluation) (head : Bool) (ledger : Ledger) :
    Resource → Response
  | .events => (Handlers.handleEvents (methodName head) online (submitEvent shim .acknowledged)
      (fun ledger => evaluation.hands (FabricClient.getAllEvents ledger)) (.object []) ledger).1
  | .event hash => Handlers.handleEventByHash (methodName head) online
      (fun hash => evaluation.hands (FabricClient.queryByHash shim ledger hash)) hash
  | .verify => Handlers.handleVerify sha256 (methodName head) online
      (evaluation.hands (FabricClient.getAllEvents ledger))
  | .status => Handlers.handleStatus online (evaluation.hands (FabricClient.getTotalCount ledger))

def serve (ledger : Ledger) : Request → Answer × Ledger
  | .post online body submission =>
    match expressJson body with
    | none => (.page (middlewareStatus body), ledger)
    | some event =>
      let (response, after) := Handlers.handleEvents (units "POST") online
        (submitEvent shim submission) FabricClient.getAllEvents event ledger
      (.json response, after)
  | .get online evaluation head resource =>
    (.json (readResource shim sha256 online evaluation head ledger resource), ledger)

end Routes

/-- A request with its answer, or a transaction of another client of the contract, whose
parameters the shim decodes. -/
inductive GatewayAction
  | request (request : Request) (answer : Answer)
  | transaction (fcn : JsString) (params : List Bytes) (submission : Submission)

inductive GatewayStep (shim : Shim) (sha256 : Bytes → Digest) : Ledger → GatewayAction → Ledger → Prop
  | request {ledger request answer after} : serve shim sha256 ledger request = (answer, after) →
      GatewayStep shim sha256 ledger (.request request answer) after
  | transaction {ledger fcn params submission} :
      GatewayStep shim sha256 ledger (.transaction fcn params submission)
        (submitTransaction shim submission fcn (params.map decodeUtf8) ledger).2

def gateway (shim : Shim) (sha256 : Bytes → Digest) : System Ledger GatewayAction where
  start ledger := ledger = ∅
  step := GatewayStep shim sha256

abbrev EventMap := StateKey → Option Json

def eventKey (shim : Shim) (event : Json) : Option StateKey :=
  match event.get "hash" with
  | none => none
  | some hash =>
    if truthy hash = false then none
    else match shim.stateKey hash, shim.bufferFrom hash with
      | .ok key, .ok _ => some key
      | _, _ => none

def carriesHash (event : Json) : Bool := (event.get "hash").any truthy

/-- All events of the map whose keys are simple, in the order of the keys. -/
def Lists (map : EventMap) (events : List Json) : Prop :=
  ∃ keys : List StateKey, (keys.Pairwise fun before after => compare before after = .lt) ∧
    (∀ key, key ∈ keys ↔ key.head?.any (· ≠ 0) = true ∧ (map key).isSome) ∧
    List.Forall₂ (fun key event => (map key).map Json.settle = some event) keys events

def submitFailed (message : JsString) : Response :=
  ⟨422, .object [(units "error", Response.text "Fabric submit failed"),
    (units "message", .string message)]⟩

def submitUnavailable : Response :=
  ⟨422, .object [(units "error", Response.text "Fabric unavailable"),
    (units "message", Response.text "event stored locally but not submitted to blockchain")]⟩

def created (hash : Json) : Response :=
  ⟨201, .object [(units "message", Response.text "event created"), (units "hash", hash)]⟩

def statusAnswer (online : Bool) (events : Json) : Response :=
  ⟨200, .object [(units "gateway", Response.text "running"), (units "fabric", .bool online),
    (units "events", events)]⟩

/-- What a resource answers while the network is healthy. The status shows an object with the number in
it, which is exact as long as JavaScript counts exactly. -/
inductive Shows (shim : Shim) (sha256 : Bytes → Digest) (map : EventMap) : Resource → Response → Prop
  | events {events} : Lists map events → Shows shim sha256 map .events ⟨200, .array events⟩
  | found {hash key event} : hash ≠ [] → shim.stateKey (some (.string hash)) = .ok key →
      map key = some event → Shows shim sha256 map (.event hash) ⟨200, event⟩
  | missing {hash} : hash ≠ [] →
      (∀ key event, shim.stateKey (some (.string hash)) = .ok key → map key ≠ some event) →
      Shows shim sha256 map (.event hash) (.error 404 (Response.text "event not found"))
  | blank : Shows shim sha256 map (.event []) (.error 400 (Response.text "hash required"))
  | verify {events response} : Lists map events → Verdict sha256 events response →
      Shows shim sha256 map .verify response
  | status {events response} : Lists map events →
      (events.length < 2 ^ 53 → response = statusAnswer true
        (.object [(units "count", .number (.finite events.length))])) →
      Shows shim sha256 map .status response

def failure (message : JsString) : Resource → Response
  | .event [] => .error 400 (Response.text "hash required")
  | .event _ => .error 404 (Response.text "event not found")
  | .status => statusAnswer true (.number (.finite (-1)))
  | .events => .error 500 (.string message)
  | .verify => .error 500 (.string message)

def disconnected : Resource → Response
  | .event [] => .error 400 (Response.text "hash required")
  | .status => statusAnswer false (.number (.finite (-1)))
  | _ => .error 503 (Response.text "Fabric unavailable")

inductive EventMapStep (shim : Shim) (sha256 : Bytes → Digest) :
    EventMap → GatewayAction → EventMap → Prop
  | malformed {map online body submission} : expressJson body = none →
      EventMapStep shim sha256 map
        (.request (.post online body submission) (.page (middlewareStatus body))) map
  | nameless {map online body submission event} : expressJson body = some event →
      carriesHash event = false → EventMapStep shim sha256 map
        (.request (.post online body submission)
          (.json (.error 400 (Response.text "invalid JSON or hash is required")))) map
  | offline {map body submission event} : expressJson body = some event → carriesHash event = true →
      EventMapStep shim sha256 map
        (.request (.post false body submission) (.json submitUnavailable)) map
  | created {map body event hash key} : expressJson body = some event →
      event.get "hash" = some (some hash) → truthy (some hash) = true →
      eventKey shim event.settle = some key → EventMapStep shim sha256 map
        (.request (.post true body .acknowledged) (.json (created hash)))
        (Function.update map key (some event.settle))
  | unconfirmed {map body event key message} : expressJson body = some event → carriesHash event = true →
      eventKey shim event.settle = some key → EventMapStep shim sha256 map
        (.request (.post true body (.unacknowledged message)) (.json (submitFailed message)))
        (Function.update map key (some event.settle))
  | failed {map body submission event message} : expressJson body = some event →
      carriesHash event = true → eventKey shim event.settle = none ∨ submission = .dropped message →
      EventMapStep shim sha256 map
        (.request (.post true body submission) (.json (submitFailed message))) map
  | shows {map head resource response} : head = false ∨ resource = .status →
      Shows shim sha256 map resource response → EventMapStep shim sha256 map
        (.request (.get true .answers head resource) (.json response)) map
  | fails {map head resource message} : head = false ∨ resource = .status →
      EventMapStep shim sha256 map
        (.request (.get true (.fails message) head resource) (.json (failure message resource))) map
  | disconnected {map evaluation head resource} : head = false ∨ resource = .status →
      EventMapStep shim sha256 map
        (.request (.get false evaluation head resource) (.json (disconnected resource))) map
  | head {map online evaluation resource} : resource ≠ .status → EventMapStep shim sha256 map
      (.request (.get online evaluation true resource)
        (.json (.error 405 (Response.text "method not allowed")))) map
  | stored {map params submission event key} : submission.committed = true →
      parse ((eventParameter params).getD (units "undefined")) = some event →
      eventKey shim event = some key → EventMapStep shim sha256 map
        (.transaction (units "CreateEvent") params submission)
        (Function.update map key (some event))
  | unchanged {map fcn params submission} :
      (fcn = units "CreateEvent" → submission.committed = true → ∀ event,
        parse ((eventParameter params).getD (units "undefined")) = some event →
        eventKey shim event = none) →
      EventMapStep shim sha256 map (.transaction fcn params submission) map

def eventMap (shim : Shim) (sha256 : Bytes → Digest) : System EventMap GatewayAction where
  start map := map = fun _ => none
  step := EventMapStep shim sha256

/-! The ledger holds the texts of the events. -/

structure Represents (ledger : Ledger) (map : EventMap) : Prop where
  absent : ∀ key : StateKey, ledger[key]? = none → map key = none
  held : ∀ (key : StateKey) (bytes : Bytes), ledger[key]? = some bytes →
    ∃ event, parse (decodeUtf8 bytes) = some event ∧ map key = some event

variable {shim : Shim} {sha256 : Bytes → Digest} {ledger : Ledger} {map : EventMap}

theorem represents_empty : Represents ∅ fun _ => none :=
  ⟨fun _ _ => rfl, fun key bytes held => by simp at held⟩

theorem Represents.insert (represents : Represents ledger map) {key : StateKey} {bytes : Bytes}
    {event : Json} (parsed : parse (decodeUtf8 bytes) = some event) :
    Represents (ledger.insert key bytes) (Function.update map key (some event)) := by
  constructor
  · intro other absent
    rw [Std.ExtTreeMap.getElem?_insert] at absent
    split at absent
    · simp at absent
    · rename_i apart
      rw [Function.update_of_ne (by rintro rfl; simp at apart)]
      exact represents.absent other absent
  · intro other content held
    rw [Std.ExtTreeMap.getElem?_insert] at held
    split at held
    · rename_i same
      obtain rfl := Option.some.inj held
      obtain rfl : key = other := by simpa using same
      exact ⟨event, parsed, Function.update_self _ _ _⟩
    · rename_i apart
      rw [Function.update_of_ne (by rintro rfl; simp at apart)]
      exact represents.held other content held

theorem Represents.allParse (represents : Represents ledger map) : AllParse ledger := by
  intro key bytes held
  obtain ⟨event, parsed, _⟩ := represents.held key bytes held
  rw [parsed]
  rfl

theorem Represents.some_iff (represents : Represents ledger map) {key : StateKey} {event : Json} :
    map key = some event ↔ ∃ bytes, ledger[key]? = some bytes ∧
      parse (decodeUtf8 bytes) = some event := by
  constructor
  · intro mapped
    cases held : ledger[key]? with
    | none => simp [represents.absent key held] at mapped
    | some bytes =>
        obtain ⟨other, parsed, same⟩ := represents.held key bytes held
        rw [mapped] at same
        obtain rfl := Option.some.inj same
        exact ⟨bytes, rfl, parsed⟩
  · rintro ⟨bytes, held, parsed⟩
    obtain ⟨other, otherParsed, mapped⟩ := represents.held key bytes held
    rw [parsed] at otherParsed
    obtain rfl := Option.some.inj otherParsed
    exact mapped

theorem eventPut_parsed {text : JsString} {event : Json} (parsed : parse text = some event) :
    eventPut shim (some text) = (eventKey shim event).map fun key => (key, encodeUtf8 text) := by
  have found : eventHash (some text) = event.get "hash" := by simp [eventHash, parsed]
  unfold eventPut eventKey
  rw [found]
  cases event.get "hash" with
  | none => rfl
  | some hash =>
      dsimp only
      split
      · rfl
      · cases shim.stateKey hash with
        | error _ => rfl
        | ok key => cases shim.bufferFrom hash <;> rfl

theorem createEvent_cases {text : JsString} {event : Json} (parsed : parse text = some event)
    (ledger : Ledger) :
    (∃ key payload, eventKey shim event = some key ∧
      AuditChaincode.createEvent shim ledger (some text) =
        .ok (payload, ledger.insert key (encodeUtf8 text))) ∨
    (∃ message, eventKey shim event = none ∧
      AuditChaincode.createEvent shim ledger (some text) = .error message) := by
  have put : eventPut shim (some text) = _ := eventPut_parsed parsed
  cases keyed : eventKey shim event with
  | some key =>
      rw [keyed, Option.map_some] at put
      obtain ⟨payload, puts⟩ := eventPut_eq_some.mp put
      exact Or.inl ⟨key, payload, rfl, AuditChaincode.createEvent_ok_iff.mpr ⟨key, _, puts, rfl⟩⟩
  | none =>
      rw [keyed, Option.map_none] at put
      cases called : AuditChaincode.createEvent shim ledger (some text) with
      | error message => exact Or.inr ⟨message, rfl, rfl⟩
      | ok answer =>
          obtain ⟨payload, after⟩ := answer
          obtain ⟨key, bytes, puts, _⟩ := AuditChaincode.createEvent_ok_iff.mp called
          simp [eventPut_eq_some.mpr ⟨payload, puts⟩] at put

theorem expressJson_parsed {body : Bytes} {event : Json} (read : expressJson body = some event) :
    ∃ text, parse text = some event := by
  unfold expressJson at read
  split at read
  · simp at read
  · split at read
    · obtain rfl := Option.some.inj read
      exact ⟨units "\x7b\x7d", rfl⟩
    · dsimp only at read
      split at read
      · exact ⟨_, read⟩
      · exact ⟨_, read⟩
      · simp at read

theorem submitArgument_parsed {body : Bytes} {event : Json} (read : expressJson body = some event) :
    parse (FabricClient.submitArgument event) = some event.settle := by
  obtain ⟨text, parsed⟩ := expressJson_parsed read
  rw [FabricClient.submitArgument, (stringify_wellFormed event (parse_value_printable parsed)).decoded]
  exact parse_stringify_parsed parsed

theorem invoke_createEvent (ledger : Ledger) (params : List JsString) :
    AuditChaincode.invoke shim ledger (units "CreateEvent") params =
      AuditChaincode.createEvent shim ledger params.head? := by
  rw [AuditChaincode.invoke, if_pos rfl]

theorem submitEvent_replays (represents : Represents ledger map) {body : Bytes} {event hash : Json}
    (read : expressJson body = some event) (got : event.get "hash" = some (some hash))
    (present : truthy (some hash) = true) (submission : Submission) :
    ∃ after, EventMapStep shim sha256 map (.request (.post true body submission)
        (.json (Handlers.createEvent true (submitEvent shim submission) event ledger).1)) after ∧
      Represents (Handlers.createEvent true (submitEvent shim submission) event ledger).2 after := by
  have isNamed : carriesHash event = true := by simp [carriesHash, got, present]
  have parsed := submitArgument_parsed read
  have answer : Handlers.createEvent true (submitEvent shim submission) event ledger =
      match submitEvent shim submission event ledger with
      | (.ok _, after) => (created hash, after)
      | (.error message, after) => (submitFailed message, after) := by
    rw [Handlers.createEvent, got]
    generalize submitEvent shim submission event ledger = submitted
    obtain ⟨outcome, after⟩ := submitted
    cases outcome <;> simp [present, created, submitFailed]
  rw [answer, submitEvent, submitTransaction, invoke_createEvent, List.head?_cons]
  rcases createEvent_cases parsed ledger with ⟨key, payload, keyed, called⟩ | ⟨message, keyed, called⟩
  · have written : Represents (ledger.insert key (encodeUtf8 (FabricClient.submitArgument event)))
        (Function.update map key (some event.settle)) :=
      represents.insert (by rw [submitArgument_decoded, parsed])
    rw [called]
    cases submission with
    | acknowledged => exact ⟨_, .created read got present keyed, written⟩
    | unacknowledged message => exact ⟨_, .unconfirmed read isNamed keyed, written⟩
    | dropped message => exact ⟨_, .failed read isNamed (Or.inr rfl), represents⟩
  · rw [called]
    exact ⟨_, .failed read isNamed (Or.inl keyed), represents⟩

theorem post_replays (represents : Represents ledger map) (online : Bool) (body : Bytes)
    (submission : Submission) :
    ∃ after, EventMapStep shim sha256 map (.request (.post online body submission)
        (serve shim sha256 ledger (.post online body submission)).1) after ∧
      Represents (serve shim sha256 ledger (.post online body submission)).2 after := by
  cases read : expressJson body with
  | none =>
      have answer : serve shim sha256 ledger (.post online body submission) =
          (.page (middlewareStatus body), ledger) := by rw [serve, read]
      rw [answer]
      exact ⟨map, .malformed read, represents⟩
  | some event =>
      have answer : serve shim sha256 ledger (.post online body submission) =
          (.json (Handlers.createEvent online (submitEvent shim submission) event ledger).1,
            (Handlers.createEvent online (submitEvent shim submission) event ledger).2) := by
        rw [serve, read]
        simp [Handlers.handleEvents]
      rw [answer]
      by_cases isNamed : carriesHash event = true
      · obtain ⟨hash, got, present⟩ : ∃ hash, event.get "hash" = some (some hash) ∧
            truthy (some hash) = true := by
          obtain ⟨hash, got, present⟩ := (Option.any_eq_true _ _).mp isNamed
          cases hash with
          | none => simp [truthy] at present
          | some hash => exact ⟨hash, got, present⟩
        cases online with
        | true => exact submitEvent_replays represents read got present submission
        | false =>
            have refused : Handlers.createEvent false (submitEvent shim submission) event ledger =
                (submitUnavailable, ledger) := by
              rw [Handlers.createEvent, got]
              simp [present, submitUnavailable]
            rw [refused]
            exact ⟨map, .offline read isNamed, represents⟩
      · have unnamed : carriesHash event = false := by simpa using isNamed
        have refused : Handlers.createEvent online (submitEvent shim submission) event ledger =
            (.error 400 (Response.text "invalid JSON or hash is required"), ledger) := by
          rw [Handlers.createEvent]
          unfold carriesHash at unnamed
          cases got : event.get "hash" with
          | none => rfl
          | some hash =>
              rw [got, Option.any_some] at unnamed
              simp [unnamed]
        rw [refused]
        exact ⟨map, .nameless read unnamed, represents⟩

theorem forall_entries {entries : List (StateKey × Bytes)}
    (each : ∀ entry ∈ entries, ∃ event, parse (decodeUtf8 entry.2) = some event ∧
      map entry.1 = some event) :
    List.Forall₂ (fun key event => (map key).map Json.settle = some event) (entries.map Prod.fst)
      ((entries.filterMap fun entry => parse (decodeUtf8 entry.2)).map Json.reread) := by
  induction entries with
  | nil => exact .nil
  | cons entry rest ih =>
      obtain ⟨⟨event, parsed, mapped⟩, others⟩ := List.forall_mem_cons.mp each
      simp only [List.filterMap_cons, parsed, List.map_cons]
      refine .cons ?_ (ih others)
      rw [mapped, Option.map_some, parse_value_settled parsed]

theorem Represents.lists (represents : Represents ledger map) :
    Lists map ((storedEvents ledger).map Json.reread) := by
  have stored : ∀ entry ∈ AuditChaincode.simpleEntries ledger, ledger[entry.1]? = some entry.2 :=
    fun entry member => Std.ExtTreeMap.mem_toList_iff_getElem?_eq_some.mp (List.mem_of_mem_filter member)
  refine ⟨(AuditChaincode.simpleEntries ledger).map Prod.fst, ?_, ?_, ?_⟩
  · rw [List.pairwise_map]
    exact Std.ExtTreeMap.ordered_keys_toList.sublist List.filter_sublist
  · intro key
    constructor
    · intro listed
      obtain ⟨entry, member, rfl⟩ := List.mem_map.mp listed
      obtain ⟨event, _, mapped⟩ := represents.held entry.1 entry.2 (stored entry member)
      exact ⟨(List.mem_filter.mp member).2, by rw [mapped]; rfl⟩
    · rintro ⟨simple, present⟩
      obtain ⟨event, mapped⟩ := Option.isSome_iff_exists.mp present
      obtain ⟨bytes, held, _⟩ := represents.some_iff.mp mapped
      have member : (key, bytes) ∈ AuditChaincode.simpleEntries ledger :=
        List.mem_filter.mpr ⟨Std.ExtTreeMap.mem_toList_iff_getElem?_eq_some.mpr held, simple⟩
      exact List.mem_map_of_mem (f := Prod.fst) member
  · exact forall_entries fun entry member => represents.held entry.1 entry.2 (stored entry member)

theorem getAllEvents_stored (ledger : Ledger) : FabricClient.getAllEvents ledger =
    .ok (.array ((storedEvents ledger).map Json.reread)) := by
  simp [FabricClient.getAllEvents, FabricClient.readResult, Bind.bind, Except.bind,
    getAllEvents_parsed]

theorem count_read {count : ℕ} (small : count < 2 ^ 53) :
    parse (decodeUtf8 (countAnswer count)) =
      some (.object [(units "count", .number (.finite count))]) := by
  have representable : (JsNumber.finite count).Representable := by
    by_cases zero : (count : ℚ) = 0
    · exact Or.inl zero
    · right
      have nearest := nearestDouble_nat small
      have double := nearestDouble_isDouble (Nat.cast_nonneg count) (by rwa [nearest])
      rw [nearest] at double
      rw [abs_of_nonneg (Nat.cast_nonneg count)]
      exact double.2
  have nearest : toDouble false count = .finite count := by
    have exact := toDouble_int (by simpa using small : (count : ℤ).natAbs < 2 ^ 53) false (by simp)
    simpa using exact
  have read : (JsNumber.finite (count : ℚ)).reread = .finite count := by
    rw [JsNumber.reread, decide_eq_false (not_lt.mpr (Nat.cast_nonneg count)),
      abs_of_nonneg (Nat.cast_nonneg count), nearest]
  have printable : (Json.object [(units "count", .number (.finite count))]).Printable :=
    ⟨representable, trivial⟩
  have name : arrayIndex (units "count") = none := by decide
  rw [countAnswer, parse_bytes printable]
  simp [Json.reread, rereadMembers, setMembers, setMember, name, read]

theorem Represents.counts (represents : Represents ledger map) :
    Shows shim sha256 map .status (Handlers.handleStatus true (FabricClient.getTotalCount ledger)) := by
  refine .status represents.lists fun small => ?_
  rw [List.length_map, storedEvents_length] at small ⊢
  rw [FabricClient.getTotalCount, getTotalCount_eq]
  simp [FabricClient.readResult, Bind.bind, Except.bind, count_read small, Handlers.handleStatus,
    statusAnswer]

theorem Represents.finds (represents : Represents ledger map) {hash : JsString} (present : hash ≠ []) :
    Shows shim sha256 map (.event hash) (Handlers.handleEventByHash (units "GET") true
      (FabricClient.queryByHash shim ledger) hash) := by
  rw [Handlers.handleEventByHash, if_neg (by simp), if_neg present, if_neg (by simp)]
  cases called : FabricClient.queryByHash shim ledger hash with
  | ok event =>
      obtain ⟨bytes, queried, read⟩ := bind_ok_iff.mp called
      obtain ⟨key, keyed, held, _⟩ := AuditChaincode.queryByHash_ok_iff.mp queried
      split at read
      · rename_i parsed
        obtain rfl := Except.ok.inj read
        exact .found present keyed (represents.some_iff.mpr ⟨bytes, held, parsed⟩)
      · simp at read
  | error message =>
      refine .missing present fun key event keyed mapped => ?_
      obtain ⟨bytes, held, parsed⟩ := represents.some_iff.mp mapped
      have nonempty : bytes ≠ [] := by
        rintro rfl
        have unread : parse (decodeUtf8 []) = none := rfl
        rw [unread] at parsed
        cases parsed
      have queried : AuditChaincode.queryByHash shim ledger (some hash) = .ok bytes :=
        AuditChaincode.queryByHash_ok_iff.mpr ⟨key, keyed, held, nonempty⟩
      rw [FabricClient.queryByHash, queried] at called
      simp [FabricClient.readResult, Bind.bind, Except.bind, parsed] at called

theorem head_notAllowed (online : Bool) (evaluation : Evaluation) (ledger : Ledger)
    {resource : Resource} (other : resource ≠ .status) :
    readResource shim sha256 online evaluation true ledger resource =
      .error 405 (Response.text "method not allowed") := by
  have notPost : units "HEAD" ≠ units "POST" := by decide
  have notGet : units "HEAD" ≠ units "GET" := by decide
  cases resource with
  | status => exact absurd rfl other
  | events => simp [readResource, methodName, Handlers.handleEvents, notPost, notGet]
  | event hash => simp [readResource, methodName, Handlers.handleEventByHash, notGet]
  | verify => simp [readResource, methodName, Handlers.handleVerify, notGet]

theorem readResource_shows (represents : Represents ledger map) (resource : Resource) :
    Shows shim sha256 map resource (readResource shim sha256 true .answers false ledger resource) := by
  have listed := represents.lists
  cases resource with
  | events =>
      have notPost : units "GET" ≠ units "POST" := by decide
      have answer : readResource shim sha256 true .answers false ledger .events =
          ⟨200, .array ((storedEvents ledger).map Json.reread)⟩ := by
        simp [readResource, methodName, Handlers.handleEvents, notPost, Handlers.listEvents,
          Evaluation.hands, getAllEvents_stored, orElse, truthy]
      rw [answer]
      exact .events listed
  | event hash =>
      by_cases blank : hash = []
      · rw [blank]
        exact .blank
      · exact represents.finds blank
  | verify =>
      have answer : readResource shim sha256 true .answers false ledger .verify =
          Handlers.handleVerify sha256 (units "GET") true
            (.ok (.array ((storedEvents ledger).map Json.reread))) := by
        rw [readResource, getAllEvents_stored]
        rfl
      rw [answer]
      exact .verify listed (handleVerify_verdict _)
  | status => exact represents.counts

theorem readResource_fails (message : JsString) (ledger : Ledger) (resource : Resource) :
    readResource shim sha256 true (.fails message) false ledger resource = failure message resource := by
  have notPost : units "GET" ≠ units "POST" := by decide
  cases resource with
  | events =>
      simp [readResource, methodName, Handlers.handleEvents, notPost, Handlers.listEvents,
        Evaluation.hands, failure]
  | event hash =>
      cases hash <;>
        simp [readResource, methodName, Handlers.handleEventByHash, Evaluation.hands, failure]
  | verify => simp [readResource, methodName, Handlers.handleVerify, Evaluation.hands, failure]
  | status => rfl

theorem readResource_disconnected (evaluation : Evaluation) (ledger : Ledger) (resource : Resource) :
    readResource shim sha256 false evaluation false ledger resource = disconnected resource := by
  have notPost : units "GET" ≠ units "POST" := by decide
  cases resource with
  | events =>
      simp [readResource, methodName, Handlers.handleEvents, notPost, Handlers.listEvents, disconnected]
  | event hash =>
      cases hash <;> simp [readResource, methodName, Handlers.handleEventByHash, disconnected]
  | verify => simp [readResource, methodName, Handlers.handleVerify, disconnected]
  | status =>
      rw [readResource]
      cases evaluation.hands (FabricClient.getTotalCount ledger) <;> rfl

theorem get_replays (represents : Represents ledger map) (online : Bool) (evaluation : Evaluation)
    (head : Bool) (resource : Resource) :
    EventMapStep shim sha256 map (.request (.get online evaluation head resource)
      (.json (readResource shim sha256 online evaluation head ledger resource))) map := by
  by_cases other : head = true ∧ resource ≠ .status
  · obtain ⟨rfl, other⟩ := other
    rw [head_notAllowed online evaluation ledger other]
    exact .head other
  -- the handler of the status does not look at the method
  have served : head = false ∨ resource = .status := by
    cases head <;> simp_all
  have answer : readResource shim sha256 online evaluation head ledger resource =
      readResource shim sha256 online evaluation false ledger resource := by
    rcases served with rfl | rfl <;> rfl
  rw [answer]
  cases online with
  | false =>
      rw [readResource_disconnected]
      exact .disconnected served
  | true =>
      cases evaluation with
      | fails message =>
          rw [readResource_fails]
          exact .fails served
      | answers => exact .shows served (readResource_shows represents resource)

theorem transaction_replays (represents : Represents ledger map) (fcn : JsString) (params : List Bytes)
    (submission : Submission) :
    ∃ after, EventMapStep shim sha256 map (.transaction fcn params submission) after ∧
      Represents (submitTransaction shim submission fcn (params.map decodeUtf8) ledger).2 after := by
  rw [submitTransaction_ledger]
  by_cases commits : fcn = units "CreateEvent" ∧ submission.committed = true
  · obtain ⟨rfl, committed⟩ := commits
    rw [if_pos ⟨rfl, committed⟩]
    have parameter : (params.map decodeUtf8).head? = eventParameter params := rfl
    rw [parameter, createdLedger]
    have decoded := eventParameter_decoded params
    cases parsed : parse ((eventParameter params).getD (units "undefined")) with
    | none =>
        have refused : ∃ message, AuditChaincode.createEvent shim ledger (eventParameter params) =
            .error message := by
          rw [AuditChaincode.createEvent]
          simp [parsed]
        obtain ⟨message, refused⟩ := refused
        rw [refused]
        exact ⟨map, .unchanged fun _ _ event found => by simp [parsed] at found, represents⟩
    | some event =>
        have given : eventParameter params =
            some ((eventParameter params).getD (units "undefined")) := by
          cases same : eventParameter params with
          | some text => rfl
          | none =>
              have unread : parse (units "undefined") = none := by
                rw [← Option.isNone_iff_eq_none]
                decide +kernel
              rw [same, Option.getD_none, unread] at parsed
              cases parsed
        rw [given]
        rcases createEvent_cases parsed ledger with
          ⟨key, payload, keyed, called⟩ | ⟨message, keyed, called⟩
        · rw [called]
          exact ⟨_, .stored committed parsed keyed, represents.insert (by rw [decoded, parsed])⟩
        · rw [called]
          refine ⟨map, .unchanged fun _ _ other found => ?_, represents⟩
          rw [parsed] at found
          obtain rfl := Option.some.inj found
          exact keyed
  · rw [if_neg commits]
    exact ⟨map, .unchanged fun creates committed => absurd ⟨creates, committed⟩ commits, represents⟩

def gatewayRefines (shim : Shim) (sha256 : Bytes → Digest) :
    Simulation (gateway shim sha256) (eventMap shim sha256) where
  related := Represents
  observe action := [action]
  initially ledger started := by
    refine ⟨fun _ => none, rfl, ?_⟩
    rw [show ledger = ∅ from started]
    exact represents_empty
  replays ledger map action next represents taken := by
    have replay : ∃ after, EventMapStep shim sha256 map action after ∧ Represents next after := by
      cases taken with
      | transaction => exact transaction_replays represents _ _ _
      | @request request answer _ served =>
          cases request with
          | post online body submission =>
              have posted : ∃ after, EventMapStep shim sha256 map (.request _
                  (serve shim sha256 ledger (.post online body submission)).1) after ∧
                  Represents (serve shim sha256 ledger (.post online body submission)).2 after :=
                post_replays represents online body submission
              rwa [served] at posted
          | get online evaluation head resource =>
              obtain ⟨rfl, rfl⟩ := Prod.mk.inj served
              exact ⟨map, get_replays represents online evaluation head resource, represents⟩
    obtain ⟨after, taken, related⟩ := replay
    exact ⟨after, .single taken, related⟩

theorem gateway_path {actions : List GatewayAction} {after : Ledger}
    (represents : Represents ledger map) (path : Path (gateway shim sha256) ledger actions after) :
    ∃ final, Path (eventMap shim sha256) map actions final ∧ Represents after final := by
  obtain ⟨final, replay, related⟩ := (gatewayRefines shim sha256).run path represents
  have same : actions.flatMap (gatewayRefines shim sha256).observe = actions :=
    List.flatMap_singleton' actions
  exact ⟨final, same ▸ replay, related⟩

theorem gateway_refines_eventMap {actions : List GatewayAction} {ledger : Ledger}
    (path : Path (gateway shim sha256) ∅ actions ledger) :
    ∃ map, Path (eventMap shim sha256) (fun _ => none) actions map ∧ Represents ledger map :=
  gateway_path represents_empty path

theorem served (ledger : Ledger) (request : Request) : (gateway shim sha256).step ledger
    (.request request (serve shim sha256 ledger request).1) (serve shim sha256 ledger request).2 :=
  .request Prod.mk.eta.symm

section TwoRequests

variable (shim : Shim) (sha256 : Bytes → Digest) (first second : Request)

def firstLedger : Ledger := (serve shim sha256 ∅ first).2

def bothLedger : Ledger := (serve shim sha256 (firstLedger shim sha256 first) second).2

def bothActions : List GatewayAction :=
  [.request first (serve shim sha256 ∅ first).1,
    .request second (serve shim sha256 (firstLedger shim sha256 first) second).1]

theorem bothActions_path : Path (gateway shim sha256) ∅ (bothActions shim sha256 first second)
    (bothLedger shim sha256 first second) :=
  .step (served ∅ first) (.single (served (firstLedger shim sha256 first) second))

end TwoRequests

def postZero : Request :=
  .post true (ascii "\x7b\"hash\":\"0a\",\"zero\":-0\x7d") .acknowledged

def readZero : Request := .get true .answers false (.event (units "0a"))

theorem postedZero_refines : ∃ map, Path (eventMap stringsOnly fun _ => idDigest) (fun _ => none)
    (bothActions stringsOnly (fun _ => idDigest) postZero readZero) map ∧
      Represents (bothLedger stringsOnly (fun _ => idDigest) postZero readZero) map :=
  gateway_refines_eventMap (bothActions_path stringsOnly (fun _ => idDigest) postZero readZero)

def GatewayAction.writes (shim : Shim) : GatewayAction → Option (StateKey × Json)
  | .request (.post online body submission) _ => do
    let event ← expressJson body
    if online && carriesHash event && submission.committed then
      (eventKey shim event.settle).map (·, event.settle)
    else none
  | .transaction fcn params submission => do
    let event ← parse ((eventParameter params).getD (units "undefined"))
    if fcn = units "CreateEvent" ∧ submission.committed = true then
      (eventKey shim event).map (·, event)
    else none
  | .request (.get _ _ _ _) _ => none

def written (map : EventMap) (write : Option (StateKey × Json)) : EventMap :=
  match write with
  | none => map
  | some (key, event) => Function.update map key (some event)

theorem eventMap_writes {action : GatewayAction} {after : EventMap}
    (taken : (eventMap shim sha256).step map action after) :
    after = written map (action.writes shim) := by
  cases taken with
  | malformed read => simp [GatewayAction.writes, read, written]
  | nameless read unnamed => simp [GatewayAction.writes, read, unnamed, written]
  | offline read _ => simp [GatewayAction.writes, read, written]
  | created read got present keyed =>
      simp [GatewayAction.writes, read, carriesHash, got, present, keyed, written,
        Submission.committed]
  | unconfirmed read isNamed keyed =>
      simp [GatewayAction.writes, read, isNamed, keyed, written, Submission.committed]
  | failed read isNamed refused =>
      rcases refused with keyed | rfl
      · simp [GatewayAction.writes, read, keyed, written]
      · simp [GatewayAction.writes, read, written, Submission.committed]
  | stored committed parsed keyed =>
      simp [GatewayAction.writes, parsed, committed, keyed, written]
  | @unchanged fcn params submission refused =>
      cases parsed : parse ((eventParameter params).getD (units "undefined")) with
      | none => simp [GatewayAction.writes, parsed, written]
      | some event =>
          by_cases commits : fcn = units "CreateEvent" ∧ submission.committed = true
          · simp [GatewayAction.writes, parsed, refused commits.1 commits.2 event parsed, written]
          · simp [GatewayAction.writes, parsed, commits, written]
  | _ => rfl

theorem eventMap_last {actions : List GatewayAction} {after : EventMap}
    (path : Path (eventMap shim sha256) map actions after) (key : StateKey) :
    after key = (lastPut key (actions.filterMap (GatewayAction.writes shim))).or (map key) := by
  induction path with
  | refl _ => rfl
  | @step _ action _ _ _ taken _ ih =>
      rw [ih, eventMap_writes taken, List.filterMap_cons]
      cases action.writes shim with
      | none => rfl
      | some write =>
          obtain ⟨other, event⟩ := write
          dsimp only [written]
          rw [lastPut, Option.or_assoc]
          by_cases same : other = key
          · simp [same]
          · simp [same, Function.update_of_ne (Ne.symm same)]

def readAnswer : Option Json → Answer
  | some event => .json ⟨200, event⟩
  | none => .json (.error 404 (Response.text "event not found"))

/-- What a client reads under a hash is what was last written there. -/
theorem gateway_reads_last {actions : List GatewayAction} {ledger : Ledger}
    (path : Path (gateway shim sha256) ∅ actions ledger) {hash : JsString} (present : hash ≠ [])
    {key : StateKey} (keyed : shim.stateKey (some (.string hash)) = .ok key) :
    serve shim sha256 ledger (.get true .answers false (.event hash)) =
      (readAnswer (lastPut key (actions.filterMap (GatewayAction.writes shim))), ledger) := by
  obtain ⟨map, replay, represents⟩ := gateway_path represents_empty path
  have last := eventMap_last replay key
  rw [Option.or_none] at last
  have shown : Shows shim sha256 map (.event hash)
      (readResource shim sha256 true .answers false ledger (.event hash)) :=
    readResource_shows represents (.event hash)
  rw [serve, ← last]
  generalize readResource shim sha256 true .answers false ledger (.event hash) = response at shown
  cases shown with
  | found _ same mapped =>
      obtain rfl := Except.ok.inj (keyed.symm.trans same)
      rw [mapped]
      rfl
  | missing _ unmapped =>
      cases mapped : map key with
      | none => rfl
      | some event => exact absurd mapped (unmapped key event keyed)
  | blank => exact absurd rfl present

theorem postedZero_read : serve stringsOnly (fun _ => idDigest)
    (bothLedger stringsOnly (fun _ => idDigest) postZero readZero)
    (.get true .answers false (.event (units "0a"))) =
      (readAnswer (lastPut (ascii "0a") ((bothActions stringsOnly (fun _ => idDigest) postZero
        readZero).filterMap (GatewayAction.writes stringsOnly))),
        bothLedger stringsOnly (fun _ => idDigest) postZero readZero) :=
  gateway_reads_last (bothActions_path stringsOnly (fun _ => idDigest) postZero readZero)
    (by decide) (by decide +kernel)

end BlockchainAuditor
