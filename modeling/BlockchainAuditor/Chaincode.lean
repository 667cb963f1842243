import BlockchainAuditor.Library.JsonParse
import Std.Data.ExtTreeMap

/-! The chaincode of `chaincode/index.js` over the world state of its channel. A call
that throws has no effect on the state. -/

namespace BlockchainAuditor

open CStrings JavaScript

/-- The bytes of a key, in whose order ranges of the state are read. -/
abbrev StateKey := Bytes

abbrev Ledger := Std.ExtTreeMap StateKey Bytes

abbrev Throws := Except JsString

def isWellFormed (text : JsString) : Bool := ofChars (toChars text) = text

/-- What the shim and the runtime make of an argument that is no well-formed string:
the key that is sent to the peer, and the buffer. -/
structure Shim where
  otherKey : JsValue → Throws StateKey
  otherBuffer : JsValue → Throws Bytes

namespace Shim

def stateKey (shim : Shim) (value : JsValue) : Throws StateKey :=
  match value with
  | some (.string text) => if isWellFormed text then .ok (encodeUtf8 text) else shim.otherKey value
  | _ => shim.otherKey value

def bufferFrom (shim : Shim) (value : JsValue) : Throws Bytes :=
  match value with
  | some (.string text) => .ok (encodeUtf8 text)
  | _ => shim.otherBuffer value

end Shim

def property (value : Json) (name : String) : Throws JsValue :=
  match value.get name with
  | some content => .ok content
  | none => .error (units "Cannot read properties of null (reading '" ++ units name ++ units "')")

theorem bind_ok_iff {α β : Type} {first : Throws α} {next : α → Throws β} {result : β} :
    (first >>= next) = .ok result ↔ ∃ value, first = .ok value ∧ next value = .ok result := by
  cases first with
  | error _ => simp [Bind.bind, Except.bind]
  | ok value => simp [Bind.bind, Except.bind]

theorem property_ok_iff {value : Json} {name : String} {content : JsValue} :
    property value name = .ok content ↔ value.get name = some content := by
  unfold property
  cases value.get name with
  | none => simp
  | some other => simp

/-! The functions of `AuditChaincode`; an argument that was not passed is `none`. -/

namespace AuditChaincode

def createEvent (shim : Shim) (ledger : Ledger) (eventJSON : Option JsString) :
    Throws (Bytes × Ledger) :=
  -- without an argument `JSON.parse` reads the word `undefined`
  let text := eventJSON.getD (units "undefined")
  match parse text with
  | none => .error (units "failed to parse event JSON")
  | some event => do
    let hash ← property event "hash"
    if truthy hash = false then .error (units "event hash is required")
    else
      let key ← shim.stateKey hash
      let payload ← shim.bufferFrom hash
      .ok (payload, ledger.insert key (encodeUtf8 text))

def queryByHash (shim : Shim) (ledger : Ledger) (hash : Option JsString) : Throws Bytes := do
  let key ← shim.stateKey (hash.map Json.string)
  let eventBytes := ledger[key]?.getD []
  if eventBytes.length = 0 then
    .error (units "event not found: " ++ hash.getD (units "undefined"))
  else .ok eventBytes

/-- The entries of `getStateByRange("", "")`: those under simple keys, which are not
empty and do not start with a zero byte. -/
def simpleEntries (ledger : Ledger) : List (StateKey × Bytes) :=
  ledger.toList.filter fun entry => entry.1.head?.any (· ≠ 0)

def getAllEvents (ledger : Ledger) : Bytes :=
  let events := (simpleEntries ledger).filterMap fun entry => parse (decodeUtf8 entry.2)
  encodeUtf8 (Json.array events).stringify

def getTotalCount (ledger : Ledger) : Throws Bytes :=
  match parse (decodeUtf8 (getAllEvents ledger)) with
  | some (.array events) =>
    let count := Json.number (.finite events.length)
    .ok (encodeUtf8 (Json.object [(units "count", count)]).stringify)
  -- `getAllEvents` writes an array
  | _ => .error (units "Unexpected end of JSON input")

def invoke (shim : Shim) (ledger : Ledger) (fcn : JsString) (params : List JsString) :
    Throws (Bytes × Ledger) :=
  if fcn = units "CreateEvent" then createEvent shim ledger params.head?
  else if fcn = units "QueryByHash" then
    (queryByHash shim ledger params.head?).map fun payload => (payload, ledger)
  else if fcn = units "GetAllEvents" then .ok (getAllEvents ledger, ledger)
  else if fcn = units "GetTotalCount" then
    (getTotalCount ledger).map fun payload => (payload, ledger)
  else .error (units "unknown function: " ++ fcn)

end AuditChaincode

structure Puts (shim : Shim) (eventJSON : Option JsString) (key : StateKey) (bytes payload : Bytes) :
    Prop where
  accepted : ∃ event hash, parse (eventJSON.getD (units "undefined")) = some event ∧
    event.get "hash" = some hash ∧ truthy hash = true ∧ shim.stateKey hash = .ok key ∧
    shim.bufferFrom hash = .ok payload
  bytes_eq : bytes = encodeUtf8 (eventJSON.getD (units "undefined"))

namespace AuditChaincode

theorem createEvent_ok_iff {shim : Shim} {ledger after : Ledger} {eventJSON : Option JsString}
    {payload : Bytes} : createEvent shim ledger eventJSON = .ok (payload, after) ↔
      ∃ key bytes, Puts shim eventJSON key bytes payload ∧ after = ledger.insert key bytes := by
  unfold createEvent
  constructor
  · intro created
    dsimp only at created
    split at created
    · simp at created
    · rename_i event parsed
      obtain ⟨hash, got, created⟩ := bind_ok_iff.mp created
      split at created
      · simp at created
      · rename_i present
        obtain ⟨key, keyed, created⟩ := bind_ok_iff.mp created
        obtain ⟨buffer, buffered, created⟩ := bind_ok_iff.mp created
        obtain ⟨rfl, rfl⟩ := Prod.mk.inj (Except.ok.inj created)
        exact ⟨key, _, ⟨⟨event, hash, parsed, property_ok_iff.mp got, by simpa using present, keyed,
          buffered⟩, rfl⟩, rfl⟩
  · rintro ⟨key, bytes, ⟨⟨event, hash, parsed, got, present, keyed, buffered⟩, rfl⟩, rfl⟩
    simp only [parsed, bind_ok_iff]
    refine ⟨hash, property_ok_iff.mpr got, ?_⟩
    rw [if_neg (by simp [present]), bind_ok_iff]
    refine ⟨key, keyed, ?_⟩
    rw [bind_ok_iff]
    exact ⟨payload, buffered, rfl⟩

theorem invoke_ok {shim : Shim} {ledger after : Ledger} {fcn : JsString} {params : List JsString}
    {payload : Bytes} (answered : invoke shim ledger fcn params = .ok (payload, after)) :
    (fcn = units "CreateEvent" ∧
      createEvent shim ledger params.head? = .ok (payload, after)) ∨ after = ledger := by
  have unchanged : ∀ call : Throws Bytes,
      call.map (fun payload => (payload, ledger)) = .ok (payload, after) → after = ledger := by
    intro call answered
    cases call with
    | error _ => simp [Except.map] at answered
    | ok _ => exact (Prod.mk.inj (Except.ok.inj answered)).2.symm
  unfold invoke at answered
  split at answered
  · rename_i create
    exact Or.inl ⟨create, answered⟩
  · split at answered
    · exact Or.inr (unchanged _ answered)
    · split at answered
      · exact Or.inr (Prod.mk.inj (Except.ok.inj answered)).2.symm
      · split at answered
        · exact Or.inr (unchanged _ answered)
        · simp at answered

theorem queryByHash_ok_iff {shim : Shim} {ledger : Ledger} {hash : Option JsString}
    {bytes : Bytes} : queryByHash shim ledger hash = .ok bytes ↔
      ∃ key, shim.stateKey (hash.map Json.string) = .ok key ∧ ledger[key]? = some bytes ∧
        bytes ≠ [] := by
  rw [queryByHash, bind_ok_iff]
  refine exists_congr fun key => and_congr_right fun _ => ?_
  cases held : ledger[key]? with
  | none => simp
  | some content =>
      by_cases empty : content = []
      · simp [empty]
      · simp only [Option.getD_some, List.length_eq_zero_iff, empty, if_false, Except.ok.injEq,
          Option.some.injEq]
        constructor
        · rintro rfl
          exact ⟨rfl, empty⟩
        · exact And.left

end AuditChaincode

end BlockchainAuditor
