import BlockchainAuditor.Gateway

/-! Runs of the ledger under requests to the gateway and direct invocations. -/

namespace BlockchainAuditor

open CStrings JavaScript

/-- How a transaction ends whose chaincode call does not throw. A client that is not
told of the commit gets an error. -/
inductive Submission
  | acknowledged
  | unacknowledged (message : JsString)
  | dropped (message : JsString)

def Submission.committed : Submission → Bool
  | .acknowledged => true
  | .unacknowledged _ => true
  | .dropped _ => false

def submitTransaction (shim : Shim) (submission : Submission) (fcn : JsString)
    (params : List JsString) (ledger : Ledger) : Throws Unit × Ledger :=
  match AuditChaincode.invoke shim ledger fcn params with
  | .error message => (.error message, ledger)
  | .ok (_, after) =>
    match submission with
    | .acknowledged => (.ok (), after)
    | .unacknowledged message => (.error message, after)
    | .dropped message => (.error message, ledger)

def submitEvent (shim : Shim) (submission : Submission) (event : Json) (ledger : Ledger) :
    Throws Unit × Ledger :=
  submitTransaction shim submission (units "CreateEvent") [FabricClient.submitArgument event] ledger

inductive Operation
  | createEvent (online : Bool) (body : Json) (submission : Submission)
  | invoke (fcn : JsString) (params : List JsString) (submission : Submission)

def step (shim : Shim) (ledger : Ledger) : Operation → Ledger
  | .createEvent online body submission =>
    (Handlers.createEvent online (submitEvent shim submission) body ledger).2
  | .invoke fcn params submission => (submitTransaction shim submission fcn params ledger).2

def run (shim : Shim) (ledger : Ledger) (operations : List Operation) : Ledger :=
  operations.foldl (step shim) ledger

def Operation.eventJSON : Operation → Option (Option JsString)
  | .createEvent online body submission =>
    if online && ((body.get "hash").any truthy) && submission.committed then
      some (some (FabricClient.submitArgument body))
    else none
  | .invoke fcn params submission =>
    if fcn = units "CreateEvent" ∧ submission.committed = true then some params.head? else none

def createdLedger (shim : Shim) (ledger : Ledger) (eventJSON : Option JsString) : Ledger :=
  match AuditChaincode.createEvent shim ledger eventJSON with
  | .ok (_, after) => after
  | .error _ => ledger

theorem createdLedger_puts {shim : Shim} {eventJSON : Option JsString} {key : StateKey}
    {bytes payload : Bytes} (puts : Puts shim eventJSON key bytes payload) (ledger : Ledger) :
    createdLedger shim ledger eventJSON = ledger.insert key bytes := by
  have created : AuditChaincode.createEvent shim ledger eventJSON =
      .ok (payload, ledger.insert key bytes) :=
    AuditChaincode.createEvent_ok_iff.mpr ⟨key, bytes, puts, rfl⟩
  rw [createdLedger, created]

theorem createdLedger_cases (shim : Shim) (ledger : Ledger) (eventJSON : Option JsString) :
    createdLedger shim ledger eventJSON = ledger ∨
      ∃ key bytes payload, Puts shim eventJSON key bytes payload ∧
        createdLedger shim ledger eventJSON = ledger.insert key bytes := by
  cases called : AuditChaincode.createEvent shim ledger eventJSON with
  | error message => exact Or.inl (by rw [createdLedger, called])
  | ok answer =>
      obtain ⟨payload, after⟩ := answer
      obtain ⟨key, bytes, puts, _⟩ := AuditChaincode.createEvent_ok_iff.mp called
      exact Or.inr ⟨key, bytes, payload, puts, createdLedger_puts puts ledger⟩

theorem submitTransaction_ledger (shim : Shim) (submission : Submission) (fcn : JsString)
    (params : List JsString) (ledger : Ledger) :
    (submitTransaction shim submission fcn params ledger).2 =
      if fcn = units "CreateEvent" ∧ submission.committed = true then
        createdLedger shim ledger params.head?
      else ledger := by
  unfold submitTransaction
  cases called : AuditChaincode.invoke shim ledger fcn params with
  | error message =>
      by_cases creates : fcn = units "CreateEvent"
      · rw [AuditChaincode.invoke, if_pos creates] at called
        simp [createdLedger, called]
      · simp [creates]
  | ok answer =>
      obtain ⟨payload, after⟩ := answer
      rcases AuditChaincode.invoke_ok called with ⟨creates, created⟩ | unchanged
      · cases submission <;> simp [creates, Submission.committed, createdLedger, created]
      · by_cases creates : fcn = units "CreateEvent"
        · rw [AuditChaincode.invoke, if_pos creates] at called
          cases submission <;> simp [creates, Submission.committed, createdLedger, called]
        · cases submission <;> simp [creates, unchanged]

theorem step_eq (shim : Shim) (ledger : Ledger) (operation : Operation) :
    step shim ledger operation =
      match operation.eventJSON with
      | none => ledger
      | some eventJSON => createdLedger shim ledger eventJSON := by
  cases operation with
  | invoke fcn params submission =>
      rw [step, submitTransaction_ledger, Operation.eventJSON]
      split <;> rfl
  | createEvent online body submission =>
      have submitted := submitTransaction_ledger shim submission (units "CreateEvent")
        [FabricClient.submitArgument body] ledger
      simp only [true_and, List.head?_cons] at submitted
      simp only [step, Handlers.createEvent_state, submitEvent, submitted, Operation.eventJSON]
      cases online && (body.get "hash").any truthy with
      | false => simp
      | true => cases submission.committed <;> simp

theorem step_cases (shim : Shim) (ledger : Ledger) (operation : Operation) :
    step shim ledger operation = ledger ∨
      ∃ eventJSON key bytes payload, operation.eventJSON = some eventJSON ∧
        Puts shim eventJSON key bytes payload ∧
        step shim ledger operation = ledger.insert key bytes := by
  rw [step_eq]
  cases creates : operation.eventJSON with
  | none => exact Or.inl rfl
  | some eventJSON =>
      rcases createdLedger_cases shim ledger eventJSON with same | ⟨key, bytes, payload, puts, put⟩
      · exact Or.inl same
      · exact Or.inr ⟨eventJSON, key, bytes, payload, rfl, puts, put⟩

theorem step_puts {shim : Shim} {operation : Operation} {eventJSON : Option JsString}
    {key : StateKey} {bytes payload : Bytes} (creates : operation.eventJSON = some eventJSON)
    (puts : Puts shim eventJSON key bytes payload) (ledger : Ledger) :
    step shim ledger operation = ledger.insert key bytes := by
  rw [step_eq, creates]
  exact createdLedger_puts puts ledger

/-- An answer of `QueryByHash` stays what it is for the rest of the run. -/
def Immutable (shim : Shim) (ledger : Ledger) (operations : List Operation) : Prop :=
  ∀ before middle after, operations = before ++ middle ++ after → ∀ hash bytes,
    AuditChaincode.queryByHash shim (run shim ledger before) hash = .ok bytes →
      AuditChaincode.queryByHash shim (run shim ledger (before ++ middle)) hash = .ok bytes

def Overwrites (shim : Shim) (ledger : Ledger) (operation : Operation) : Prop :=
  ∃ (eventJSON hash : Option JsString) (key : StateKey) (bytes payload stored : Bytes),
    operation.eventJSON = some eventJSON ∧ Puts shim eventJSON key bytes payload ∧
    shim.stateKey (hash.map Json.string) = .ok key ∧ ledger[key]? = some stored ∧ stored ≠ [] ∧
    stored ≠ bytes

theorem step_queryByHash {shim : Shim} {ledger : Ledger} {operation : Operation}
    (harmless : ¬Overwrites shim ledger operation) {hash : Option JsString} {bytes : Bytes}
    (answered : AuditChaincode.queryByHash shim ledger hash = .ok bytes) :
    AuditChaincode.queryByHash shim (step shim ledger operation) hash = .ok bytes := by
  obtain ⟨key, keyed, held, present⟩ := AuditChaincode.queryByHash_ok_iff.mp answered
  refine AuditChaincode.queryByHash_ok_iff.mpr ⟨key, keyed, ?_, present⟩
  rcases step_cases shim ledger operation with
    same | ⟨eventJSON, other, text, payload, creates, puts, put⟩
  · rw [same]
    exact held
  · rw [put, Std.ExtTreeMap.getElem?_insert]
    split
    · rename_i matching
      obtain rfl : other = key := by simpa using matching
      refine congrArg some (Eq.symm ?_)
      by_contra different
      exact harmless ⟨eventJSON, hash, other, text, payload, bytes, creates, puts, keyed, held,
        present, different⟩
    · exact held

theorem overwrites_queryByHash {shim : Shim} {ledger : Ledger} {operation : Operation}
    (overwrites : Overwrites shim ledger operation) : ∃ hash bytes,
      AuditChaincode.queryByHash shim ledger hash = .ok bytes ∧
        AuditChaincode.queryByHash shim (step shim ledger operation) hash ≠ .ok bytes := by
  obtain ⟨eventJSON, hash, key, bytes, payload, stored, creates, puts, keyed, held, present,
    different⟩ := overwrites
  refine ⟨hash, stored, AuditChaincode.queryByHash_ok_iff.mpr ⟨key, keyed, held, present⟩, ?_⟩
  intro answered
  obtain ⟨other, otherKeyed, otherHeld, _⟩ := AuditChaincode.queryByHash_ok_iff.mp answered
  obtain rfl : key = other := Except.ok.inj (keyed.symm.trans otherKeyed)
  rw [step_puts creates puts, Std.ExtTreeMap.getElem?_insert_self, Option.some.injEq] at otherHeld
  exact different otherHeld.symm

theorem run_append (shim : Shim) (ledger : Ledger) (first second : List Operation) :
    run shim ledger (first ++ second) = run shim (run shim ledger first) second :=
  List.foldl_append

theorem run_queryByHash {shim : Shim} {ledger : Ledger} {operations : List Operation}
    (harmless : ∀ before operation after, operations = before ++ operation :: after →
      ¬Overwrites shim (run shim ledger before) operation) {hash : Option JsString} {bytes : Bytes}
    (answered : AuditChaincode.queryByHash shim ledger hash = .ok bytes) :
    AuditChaincode.queryByHash shim (run shim ledger operations) hash = .ok bytes := by
  induction operations generalizing ledger with
  | nil => exact answered
  | cons operation operations ih =>
      have first := step_queryByHash (harmless [] operation operations rfl) answered
      refine ih (fun before other after split => ?_) first
      exact harmless (operation :: before) other after (by rw [split]; rfl)

theorem ledger_immutable_iff (shim : Shim) (ledger : Ledger) (operations : List Operation) :
    Immutable shim ledger operations ↔
      ∀ before operation after, operations = before ++ operation :: after →
        ¬Overwrites shim (run shim ledger before) operation := by
  constructor
  · intro immutable before operation after split overwrites
    obtain ⟨hash, bytes, answered, changed⟩ := overwrites_queryByHash overwrites
    have kept := immutable before [operation] after (by simp [split]) hash bytes answered
    rw [run_append] at kept
    exact changed kept
  · intro harmless before middle after split hash bytes answered
    rw [run_append]
    refine run_queryByHash (fun front operation back inside => ?_) answered
    rw [← run_append]
    exact harmless (before ++ front) operation (back ++ after) (by simp [split, inside])

def stringsOnly : Shim where
  otherKey := fun _ => .error (units "key must be a string")
  otherBuffer := fun _ => .error (units "The first argument must be of type string")

def hashedBody (command : String) : Json :=
  .object [(units "hash", Response.text "00ff"), (units "command", Response.text command)]

theorem hashedBody_step (command : String) (ledger : Ledger)
    (read : ((parse (FabricClient.submitArgument (hashedBody command))).bind
      (·.get "hash")).any (isText · (units "00ff")) = true) :
    step stringsOnly ledger (.createEvent true (hashedBody command) .acknowledged) =
      ledger.insert (ascii "00ff")
        (encodeUtf8 (FabricClient.submitArgument (hashedBody command))) := by
  obtain ⟨hash, found, same⟩ := (Option.any_eq_true _ _).mp read
  obtain ⟨event, parsed, got⟩ := Option.bind_eq_some_iff.mp found
  obtain rfl := isText_eq same
  have puts : Puts stringsOnly (some (FabricClient.submitArgument (hashedBody command)))
      (ascii "00ff") (encodeUtf8 (FabricClient.submitArgument (hashedBody command)))
      (ascii "00ff") := by
    refine ⟨⟨event, some (.string (units "00ff")), ?_, got, ?_, ?_, ?_⟩, ?_⟩
    · rw [Option.getD_some, parsed]
    · decide +kernel
    · decide +kernel
    · decide +kernel
    · rw [Option.getD_some]
  have visible : units "00ff" ≠ [] := by decide
  have named : ((hashedBody command).get "hash").any truthy = true := by
    simp [hashedBody, Json.get, Response.text, truthy, visible]
  refine step_puts ?_ puts ledger
  rw [Operation.eventJSON, named]
  rfl

theorem secondEvent_overwrites :
    ¬Immutable stringsOnly ∅ [.createEvent true (hashedBody "id") .acknowledged,
      .createEvent true (hashedBody "ls") .acknowledged] := by
  intro immutable
  have key : stringsOnly.stateKey ((some (units "00ff")).map Json.string) = .ok (ascii "00ff") := by
    decide +kernel
  have different : encodeUtf8 (FabricClient.submitArgument (hashedBody "id")) ≠
      encodeUtf8 (FabricClient.submitArgument (hashedBody "ls")) := by decide +kernel
  have first := fun ledger => hashedBody_step "id" ledger (by decide +kernel)
  have second := fun ledger => hashedBody_step "ls" ledger (by decide +kernel)
  have kept := immutable [.createEvent true (hashedBody "id") .acknowledged]
    [.createEvent true (hashedBody "ls") .acknowledged] [] rfl (some (units "00ff"))
    (encodeUtf8 (FabricClient.submitArgument (hashedBody "id")))
  simp only [run, List.foldl_cons, List.foldl_nil, List.cons_append, List.nil_append, first,
    second, AuditChaincode.queryByHash_ok_iff] at kept
  obtain ⟨other, otherKey, held, _⟩ := kept ⟨ascii "00ff", key, by simp, by decide +kernel⟩
  obtain rfl : ascii "00ff" = other := Except.ok.inj (key.symm.trans otherKey)
  rw [Std.ExtTreeMap.getElem?_insert_self, Option.some.injEq] at held
  exact different held.symm

end BlockchainAuditor
