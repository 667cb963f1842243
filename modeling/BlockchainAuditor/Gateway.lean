import BlockchainAuditor.Chaincode
import BlockchainAuditor.AuditEvent

/-! The gateway: the JSON middleware of `index.js`, the Fabric client and the request
handlers. -/

namespace BlockchainAuditor

open CStrings JavaScript

def byteOrderMark : UInt16 := 0xFEFF

def stripBom : JsString → JsString
  | unit :: rest => if unit = byteOrderMark then rest else unit :: rest
  | [] => []

/-- `express.json()` with its default limit and strict mode, for the body of an
`application/json` request; nothing when it answers with an error of its own. -/
def expressJson (body : Bytes) : Option Json :=
  if 100 * 1024 < body.length then none
  else if body = [] then some (.object [])
  else
    let text := stripBom (decodeUtf8 body)
    match skipSpace text with
    | 123 :: _ => parse text
    | 91 :: _ => parse text
    | _ => none

namespace FabricClient

/-- The argument that `submitEvent` passes to `CreateEvent`, as the chaincode reads it. -/
def submitArgument (event : Json) : JsString := decodeUtf8 (encodeUtf8 event.stringify)

/-- `JSON.parse(Buffer.from(result).toString())`; what it throws for a text that is no JSON is shown
to nobody. -/
def readResult (result : Throws Bytes) : Throws Json := do
  match parse (decodeUtf8 (← result)) with
  | some value => .ok value
  | none => .error (units "Unexpected end of JSON input")

def queryByHash (shim : Shim) (ledger : Ledger) (hash : JsString) : Throws Json :=
  readResult (AuditChaincode.queryByHash shim ledger (some hash))

def getAllEvents (ledger : Ledger) : Throws Json :=
  readResult (.ok (AuditChaincode.getAllEvents ledger))

def getTotalCount (ledger : Ledger) : Throws Json :=
  readResult (AuditChaincode.getTotalCount ledger)

end FabricClient

/-! The handlers. `online` is `this.fc && this.fc.healthy`, and the calls of the Fabric
client are given by what they resolve to. -/

structure Response where
  status : Nat
  body : Json

namespace Response

def text (content : String) : Json := .string (units content)

def error (status : Nat) (content : Json) : Response := ⟨status, .object [(units "error", content)]⟩

end Response

def notPrimitive : JsString := units "Cannot convert object to primitive value"

/-- The name of an object's constructor; an own member may stand in its place. -/
def instanceText (value : Json) : Throws JsString :=
  match value.get "constructor" with
  | some (some constructor) =>
    if truthy (some constructor) = false then .ok (units "[Object]")
    else match constructor with
      | .object members =>
        match members.lookup (units "name") with
        | none => .ok (units "[Object]")
        | some name =>
          match name.toText with
          | some text => .ok (units "an instance of " ++ text)
          | none => .error notPrimitive
      | .array _ => .ok (units "[Object]")
      | primitive => .error (units "Cannot use 'in' operator to search for 'name' in " ++
          primitive.toText.getD [])
  | _ => .ok (units "an instance of Object")

def receivedText : Json → Throws JsString
  | .array _ => .ok (units "an instance of Array")
  | .object members => instanceText (.object members)
  | .number number => .ok (units "type number (" ++ number.text ++ units ")")
  | value => .ok (units "type boolean (" ++ value.toText.getD [] ++ units ")")

def typeError (value : Json) : JsString :=
  match receivedText value with
  | .ok text => units "The \"data\" argument must be of type string or an instance of Buffer, " ++
      units "TypedArray, or DataView. Received " ++ text
  | .error message => message

/-- The digest of `ev`: every part is `ev.name || ""` or `String(ev.name || 0)`. -/
def textPart (ev : Json) (name : String) : Throws Bytes := do
  match orElse (← property ev name) (.string []) with
  | .string text => .ok (encodeUtf8 text)
  | value => .error (typeError value)

def numberPart (ev : Json) (name : String) : Throws Bytes := do
  match (orElse (← property ev name) (.number (.finite 0))).toText with
  | some text => .ok (encodeUtf8 text)
  | none => .error notPrimitive

def hashedText (ev : Json) : Throws Bytes := do
  let eventType ← textPart ev "event_type"
  let command ← textPart ev "command"
  let user ← textPart ev "user"
  let pid ← numberPart ev "pid"
  let cwd ← textPart ev "cwd"
  let timestamp ← textPart ev "timestamp"
  let returnCode ← numberPart ev "return_code"
  .ok (eventType ++ command ++ user ++ pid ++ cwd ++ timestamp ++ returnCode)

def hexUnits (digest : Digest) : JsString := (hexDigest digest).map UInt8.toUInt16

def computeSHA256 (sha256 : Bytes → Digest) (ev : Json) : Throws JsString := do
  .ok (hexUnits (sha256 (← hashedText ev)))

def isText (value : JsValue) (text : JsString) : Bool :=
  match value with
  | some (.string content) => content = text
  | _ => false

theorem isText_eq {value : JsValue} {text : JsString} (same : isText value text = true) :
    value = some (.string text) := by
  unfold isText at same
  split at same
  · rename_i content
    rw [of_decide_eq_true same]
  · simp at same

namespace Handlers

/-- `submitEvent` acts on the state that the network keeps. -/
def createEvent {State : Type} (online : Bool) (submitEvent : Json → State → Throws Unit × State)
    (event : Json) (state : State) : Response × State :=
  match event.get "hash" with
  | none => (.error 400 (Response.text "invalid JSON or hash is required"), state)
  | some hash =>
    if truthy hash = false then
      (.error 400 (Response.text "invalid JSON or hash is required"), state)
    else if online = false then
      (⟨422, .object [(units "error", Response.text "Fabric unavailable"),
        (units "message",
          Response.text "event stored locally but not submitted to blockchain")]⟩, state)
    else match submitEvent event state with
      | (.ok _, after) => (⟨201, .object [(units "message", Response.text "event created"),
          (units "hash", hash.getD .null)]⟩, after)
      | (.error message, after) =>
        (⟨422, .object [(units "error", Response.text "Fabric submit failed"),
          (units "message", .string message)]⟩, after)

def listEvents (online : Bool) (getAllEvents : Throws Json) : Response :=
  if online = false then .error 503 (Response.text "Fabric unavailable")
  else match getAllEvents with
    | .ok events => ⟨200, orElse (some events) (.array [])⟩
    | .error message => .error 500 (.string message)

def handleEvents {State : Type} (method : JsString) (online : Bool)
    (submitEvent : Json → State → Throws Unit × State) (getAllEvents : State → Throws Json)
    (event : Json) (state : State) : Response × State :=
  if method = units "POST" then createEvent online submitEvent event state
  else if method = units "GET" then (listEvents online (getAllEvents state), state)
  else (.error 405 (Response.text "method not allowed"), state)

def handleEventByHash (method : JsString) (online : Bool) (queryByHash : JsString → Throws Json)
    (hash : JsString) : Response :=
  if method ≠ units "GET" then .error 405 (Response.text "method not allowed")
  else if hash = [] then .error 400 (Response.text "hash required")
  else if online = false then .error 503 (Response.text "Fabric unavailable")
  else match queryByHash hash with
    | .ok event => ⟨200, event⟩
    | .error _ => .error 404 (Response.text "event not found")

def verifyEvents (sha256 : Bytes → Digest) :
    List Json → Bool → List Json → Throws (Bool × List Json)
  | [], verified, failed => .ok (verified, failed)
  | ev :: rest, verified, failed => do
    let expectedHash ← computeSHA256 sha256 ev
    let hash ← property ev "hash"
    if isText hash expectedHash then verifyEvents sha256 rest verified failed
    else verifyEvents sha256 rest false (failed ++ [hash.getD .null])

def report (verified : Bool) (total : Nat) (failed : List Json) : Response :=
  ⟨200, .object [(units "verified", .bool verified), (units "total", .number (.finite total)),
    (units "failed", .array failed)]⟩

def handleVerify (sha256 : Bytes → Digest) (method : JsString) (online : Bool)
    (getAllEvents : Throws Json) : Response :=
  if method ≠ units "GET" then .error 405 (Response.text "method not allowed")
  else if online = false then .error 503 (Response.text "Fabric unavailable")
  else match getAllEvents with
    | .ok (.array events) =>
      match verifyEvents sha256 events true [] with
      | .ok (verified, failed) => report verified events.length failed
      | .error message => .error 500 (.string message)
    -- `GetAllEvents` answers with an array
    | .ok _ => .error 500 (Response.text "events is not iterable")
    | .error message => .error 500 (.string message)

def handleStatus (online : Bool) (getTotalCount : Throws Json) : Response :=
  let count :=
    match online, getTotalCount with
    | true, .ok count => count
    | _, _ => .number (.finite (-1))
  ⟨200, .object [(units "gateway", Response.text "running"), (units "fabric", .bool online),
    (units "events", count)]⟩

end Handlers

theorem Handlers.createEvent_state {State : Type} (online : Bool)
    (submitEvent : Json → State → Throws Unit × State) (event : Json) (state : State) :
    (Handlers.createEvent online submitEvent event state).2 =
      if (online && (event.get "hash").any truthy) = true then (submitEvent event state).2
      else state := by
  unfold Handlers.createEvent
  cases got : event.get "hash" with
  | none => simp
  | some hash =>
      cases online with
      | false =>
          by_cases present : truthy hash = true
          · simp [present]
          · simp [present]
      | true =>
          by_cases present : truthy hash = true
          · obtain ⟨outcome, after⟩ := submitEvent event state
            cases outcome <;> simp [present]
          · simp [present]

end BlockchainAuditor
