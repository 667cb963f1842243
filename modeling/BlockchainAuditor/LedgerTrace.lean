import BlockchainAuditor.EventPipeline
import BlockchainAuditor.EventIdentity
import BlockchainAuditor.LedgerEntries

/-! The auditor process, the gateway and the ledger as one system: which events the entries
of the ledger come from. -/

namespace BlockchainAuditor

open CStrings JavaScript KeyedPuts LineReader Transitions

/-- What becomes of a request: it does not arrive, its answer does not come back, or both do. -/
inductive Fate
  | lost (code : Nat) (isError : code ≠ curleOk)
  | unanswered (online : Bool) (submission : Submission) (code : Nat) (isError : code ≠ curleOk)
  | answered (online : Bool) (submission : Submission)

def Fate.exchange (shim : Shim) (ledger : Ledger) (body : Bytes) : Fate → Exchange × Ledger
  | .lost code isError => (.transportFailure code isError, ledger)
  | .unanswered online submission code isError =>
    (.transportFailure code isError, (postEvents shim online submission body ledger).2)
  | .answered online submission =>
    let (status, after) := postEvents shim online submission body ledger
    (.completed status, after)

theorem exchange_answered (shim : Shim) (ledger : Ledger) (body : Bytes) (online : Bool)
    (submission : Submission) : (Fate.answered online submission).exchange shim ledger body =
      (.completed (postEvents shim online submission body ledger).1,
        (postEvents shim online submission body ledger).2) := rfl

structure AuditState where
  process : PipelineState
  ledger : Ledger

/-- `other` is an operation of somebody else on the ledger. -/
inductive AuditAction
  | process (action : PipelineAction)
  | posts (ev : AuditEvent) (fate : Fate) (network : Network)
  | other (operation : Operation)

/-- What the worker sees of the network is how its request ends. Without the handle there is
no request. -/
inductive AuditStep (client : HttpClient) (useGateway : Bool) (shim : Shim) :
    AuditState → AuditAction → AuditState → Prop
  | process {state action process} : (∀ ev network, action ≠ .posts ev network) →
      PipelineStep client useGateway state.process action process →
      AuditStep client useGateway shim state (.process action) { state with process }
  | posts {state ev fate network process exchange ledger} :
      fate.exchange shim state.ledger (postEventRequest client ev).body = (exchange, ledger) →
      network (postEventRequest client ev) = exchange →
      PipelineStep client useGateway state.process (.posts ev network) process →
      AuditStep client useGateway shim state (.posts ev fate network)
        { process, ledger := if client.curl then ledger else state.ledger }
  | other {state operation} : AuditStep client useGateway shim state (.other operation)
      { state with ledger := step shim state.ledger operation }

def auditSystem (client : HttpClient) (useGateway : Bool) (shim : Shim) (size : Int) :
    System AuditState AuditAction where
  start state := (pipeline client useGateway size).start state.process
  step := AuditStep client useGateway shim

def AuditAction.process? : AuditAction → Option PipelineAction
  | .process action => some action
  | .posts ev _ network => some (.posts ev network)
  | .other _ => none

def processActions (actions : List AuditAction) : List PipelineAction :=
  actions.filterMap AuditAction.process?

def AuditAction.operation? (client : HttpClient) : AuditAction → Option Operation
  | .process _ => none
  | .posts ev fate _ =>
    if client.curl = false then none
    else (expressJson (postEventRequest client ev).body).bind fun event =>
      match fate with
      | .lost _ _ => none
      | .unanswered online submission _ _ => some (.createEvent online event submission)
      | .answered online submission => some (.createEvent online event submission)
  | .other operation => some operation

def ledgerOperations (client : HttpClient) (actions : List AuditAction) : List Operation :=
  actions.filterMap (AuditAction.operation? client)

variable {client : HttpClient} {useGateway : Bool} {shim : Shim} {size : Int}
  {source middle state next : AuditState} {action : AuditAction} {actions done : List AuditAction}
  {sha256 : Bytes → Digest} {ev : AuditEvent}

def auditRefines (client : HttpClient) (useGateway : Bool) (shim : Shim) (size : Int) :
    Simulation (auditSystem client useGateway shim size) (pipeline client useGateway size) where
  related state image := image = state.process
  observe action := action.process?.toList
  initially state started := ⟨state.process, started, rfl⟩
  replays state image action next related taken := by
    subst related
    cases taken with
    | process _ inside => exact ⟨_, .single inside, rfl⟩
    | posts _ _ inside => exact ⟨_, .single inside, rfl⟩
    | other => exact ⟨_, .refl _, rfl⟩

theorem processActions_path
    (path : Path (auditSystem client useGateway shim size) source actions state) :
    Path (pipeline client useGateway size) source.process (processActions actions)
      state.process := by
  obtain ⟨final, replay, related⟩ := (auditRefines client useGateway shim size).run path rfl
  have same : actions.flatMap (auditRefines client useGateway shim size).observe =
      processActions actions := List.filterMap_eq_flatMap_toList _ _ |>.symm
  rw [same, show final = state.process from related] at replay
  exact replay

theorem step_ledger (taken : (auditSystem client useGateway shim size).step state action next) :
    next.ledger = run shim state.ledger (action.operation? client).toList := by
  cases taken with
  | process _ _ => rfl
  | other => rfl
  | @posts ev fate network _ exchange ledger exchanged _ _ =>
      have after := congrArg Prod.snd exchanged
      dsimp only at after ⊢
      by_cases handle : client.curl = false
      · simp [AuditAction.operation?, handle, run]
      · rw [if_pos (by simpa using handle), ← after, AuditAction.operation?, if_neg handle]
        cases decoded : expressJson (postEventRequest client ev).body with
        | none => cases fate <;> simp [Fate.exchange, postEvents_ledger, decoded, run]
        | some event => cases fate <;> simp [Fate.exchange, postEvents_ledger, decoded, run]

theorem path_ledger (path : Path (auditSystem client useGateway shim size) source actions state) :
    state.ledger = run shim source.ledger (ledgerOperations client actions) := by
  induction path with
  | refl _ => rfl
  | @step _ action _ actions _ taken _ ih =>
      have first := step_ledger taken
      rw [ih, first, ← run_append]
      congr 1
      simp [ledgerOperations, List.filterMap_eq_flatMap_toList]

theorem createEvent_put {online : Bool} {event : Json} {submission : Submission}
    {eventJSON : Option JsString}
    (creates : (Operation.createEvent online event submission).eventJSON = some eventJSON) :
    (event.get "hash").any truthy = true ∧
      eventJSON = some (FabricClient.submitArgument event) := by
  simp only [Operation.eventJSON] at creates
  split at creates
  · rename_i allowed
    simp only [Bool.and_eq_true] at allowed
    exact ⟨allowed.1.2, (Option.some.inj creates).symm⟩
  · cases creates

theorem posts_put {ev : AuditEvent} {fate : Fate} {network : Network} {operation : Operation}
    {eventJSON : Option JsString} {put : StateKey × Bytes}
    (leads : (AuditAction.posts ev fate network).operation? client = some operation)
    (creates : operation.eventJSON = some eventJSON) (puts : eventPut shim eventJSON = some put) :
    eventEntry shim ev = some put := by
  simp only [AuditAction.operation?, postEventRequest] at leads
  split at leads
  · cases leads
  · obtain ⟨event, decoded, handled⟩ := Option.bind_eq_some_iff.mp leads
    have created : ∃ online submission, operation = .createEvent online event submission := by
      cases fate with
      | lost _ _ => cases handled
      | unanswered online submission _ _ => exact ⟨_, _, (Option.some.inj handled).symm⟩
      | answered online submission => exact ⟨_, _, (Option.some.inj handled).symm⟩
    obtain ⟨online, submission, rfl⟩ := created
    obtain ⟨named, rfl⟩ := createEvent_put creates
    rw [eventEntry, decoded]
    simpa [named] using puts

theorem ledger_puts (started : (auditSystem client useGateway shim size).start source)
    (path : Path (auditSystem client useGateway shim size) source actions state)
    {put : StateKey × Bytes} (member : put ∈ runPuts shim (ledgerOperations client actions)) :
    (∃ ev ∈ capturedBy (processActions actions), eventEntry shim ev = some put) ∨
    ∃ operation eventJSON, .other operation ∈ actions ∧ operation.eventJSON = some eventJSON ∧
      eventPut shim eventJSON = some put := by
  obtain ⟨eventJSON, listed, puts⟩ := List.mem_filterMap.mp member
  obtain ⟨operation, leads, creates⟩ := List.mem_filterMap.mp listed
  obtain ⟨action, taken, caused⟩ := List.mem_filterMap.mp leads
  cases action with
  | process _ => cases caused
  | posts ev fate network =>
      have attempted : ev ∈ attemptedBy (processActions actions) :=
        List.mem_filterMap.mpr ⟨.posts ev network, List.mem_filterMap.mpr ⟨_, taken, rfl⟩, rfl⟩
      exact Or.inl ⟨ev, attempted_captured started (processActions_path path) attempted,
        posts_put caused creates puts⟩
  | other other =>
      obtain rfl := Option.some.inj caused
      exact Or.inr ⟨_, eventJSON, taken, creates, puts⟩

theorem ledger_traced (started : (auditSystem client useGateway shim size).start source)
    (path : Path (auditSystem client useGateway shim size) source actions state) {key : StateKey}
    {bytes : Bytes} (held : state.ledger[key]? = some bytes) :
    source.ledger[key]? = some bytes ∨
    (∃ ev ∈ capturedBy (processActions actions), eventEntry shim ev = some (key, bytes)) ∨
    ∃ operation eventJSON, .other operation ∈ actions ∧ operation.eventJSON = some eventJSON ∧
      eventPut shim eventJSON = some (key, bytes) := by
  rw [path_ledger path, run_eq_replay, replay_getElem?, Option.or_eq_some_iff] at held
  rcases held with stored | ⟨_, before⟩
  · exact Or.inr (ledger_puts started path (lastPut_mem stored))
  · exact Or.inl before

/-- While others only read, nothing that is stored is ever replaced. -/
theorem auditor_never_overwrites (started : (auditSystem client useGateway shim size).start source)
    (earlier : Path (auditSystem client useGateway shim size) source done middle)
    (later : Path (auditSystem client useGateway shim size) middle actions state)
    (readOnly : ∀ operation, .other operation ∈ done ++ actions → operation.eventJSON = none)
    (storable : ∀ ev ∈ capturedBy (processActions (done ++ actions)), Storable sha256 ev)
    (collisionFree : Set.InjOn sha256
      {text | ∃ ev ∈ capturedBy (processActions (done ++ actions)), text = hashText ev})
    (known : ∀ ev ∈ capturedBy (processActions (done ++ actions)), ∀ bytes,
      source.ledger[ev.hash.str]? = some bytes → bytes = auditEventToJson ev jsonEventMax)
    {key : StateKey} {bytes : Bytes} (held : middle.ledger[key]? = some bytes) :
    state.ledger[key]? = some bytes := by
  have whole := earlier.append later
  have entries : ∀ put ∈ runPuts shim (ledgerOperations client (done ++ actions)),
      ∃ ev ∈ capturedBy (processActions (done ++ actions)),
        put = (ev.hash.str, auditEventToJson ev jsonEventMax) := by
    intro put member
    rcases ledger_puts started whole member with ⟨ev, captured, entry⟩ |
      ⟨operation, eventJSON, taken, creates, _⟩
    · rw [(storable ev captured).entry] at entry
      exact ⟨ev, captured, (Option.some.inj entry).symm⟩
    · simp [readOnly operation taken] at creates
  rw [ledgerOperations, List.filterMap_append, runPuts, List.filterMap_append,
    List.filterMap_append] at entries
  rw [path_ledger later, run_eq_replay, replay_getElem?]
  cases last : lastPut key (runPuts shim (ledgerOperations client actions)) with
  | none => exact held
  | some stored =>
      obtain ⟨ev, captured, same⟩ := entries _ (List.mem_append_right _ (lastPut_mem last))
      obtain ⟨hash, line⟩ := Prod.mk.inj same
      refine congrArg some ?_
      rw [path_ledger earlier, run_eq_replay, replay_getElem?, Option.or_eq_some_iff] at held
      rcases held with before | ⟨_, initial⟩
      · obtain ⟨other, alsoCaptured, alike⟩ := entries _ (List.mem_append_left _ (lastPut_mem before))
        obtain ⟨otherHash, otherLine⟩ := Prod.mk.inj alike
        rw [line, otherLine]
        exact storable_lines storable collisionFree captured alsoCaptured (hash.symm.trans otherHash)
      · rw [hash] at initial
        rw [line, known ev captured bytes initial]

/-! Runs in which nothing goes wrong. -/

/-- Every request arrives and is answered once its transaction is committed, the others only
read the ledger, the log opens, and a signal comes behind the producing loop. -/
def Healthy (state : AuditState) : AuditAction → Prop
  | .process (.writes _ opened) => opened = true
  | .process action => SignalsBehind state.process action
  | .posts _ fate _ => fate = .answered true .acknowledged
  | .other operation => operation.eventJSON = none

theorem healthyActions_path
    (path : Path ((auditSystem client useGateway shim size).restrict Healthy) source actions state) :
    Path ((pipeline client useGateway size).restrict SignalsBehind) source.process
      (processActions actions) state.process := by
  induction path with
  | refl _ => exact .refl _
  | step taken _ ih =>
      obtain ⟨healthy, taken⟩ := taken
      cases taken with
      | process _ inside =>
          refine .step ⟨?_, inside⟩ ih
          cases inside with
          | writes _ => exact nofun
          | _ => exact healthy
      | posts _ _ inside => exact .step ⟨nofun, inside⟩ ih
      | other => exact ih

structure HealthyRecord (shim : Shim) (initialLedger : Ledger) (done : List PipelineAction)
    (state : AuditState) : Prop where
  popped : poppedBy (queueActions (auditorActions done)) =
    attemptedBy done ++ state.process.auditor.worker.inFlight
  stored : state.ledger = replay initialLedger ((attemptedBy done).filterMap (eventEntry shim))
  logged : loggedBy done = handedBy done

theorem healthy_step (handle : client.curl = true) {initialLedger : Ledger}
    {before : List PipelineAction} (record : HealthyRecord shim initialLedger before state)
    (taken : ((auditSystem client useGateway shim size).restrict Healthy).step state action next) :
    HealthyRecord shim initialLedger (before ++ action.process?.toList) next := by
  obtain ⟨popped, stored, logged⟩ := record
  obtain ⟨healthy, taken⟩ := taken
  cases taken with
  | @other operation =>
      have silent : operation.eventJSON = none := healthy
      have unchanged : step shim state.ledger operation = state.ledger := by rw [step_eq, silent]
      refine ⟨?_, ?_, ?_⟩
      · simpa [AuditAction.process?] using popped
      · simpa [AuditAction.process?, unchanged] using stored
      · simpa [AuditAction.process?] using logged
  | @process action process notPosting inside =>
      have more := popped_step inside notPosting
      have attempted : attemptedBy (before ++ [action]) = attemptedBy before := by
        rw [attemptedBy_snoc]
        cases action with
        | posts ev network => exact absurd rfl (notPosting ev network)
        | _ => exact List.append_nil _
      simp only [AuditAction.process?, Option.toList_some]
      refine ⟨?_, ?_, ?_⟩
      · rw [queueActions_snoc, poppedBy_append, popped, attempted, List.append_assoc, more]
      · simpa only [attempted] using stored
      · rw [loggedBy_snoc, handedBy_snoc, logged]
        cases inside with
        | @writes ev opened _ =>
            obtain rfl : opened = true := healthy
            rfl
        | _ => rfl
  | @posts ev fate network _ _ _ exchanged seen inside =>
      obtain rfl : fate = .answered true .acknowledged := healthy
      have arrived := congrArg Prod.fst exchanged
      have after := congrArg Prod.snd exchanged
      simp only [Fate.exchange] at arrived after
      have posted : httpClientPostEvent client network ev = 0 := by
        rw [httpClientPostEvent, if_neg (by simp [handle]), seen, ← arrived]
        rfl
      cases inside with
      | posts _ delivering inside =>
          cases inside with
          | posts alsoDelivering =>
              obtain ⟨rfl, rfl⟩ := WorkerPlace.delivering.inj (delivering.symm.trans alsoDelivering)
              rw [delivering] at popped
              have finishes : ∀ retries, workerPosted client network ev retries = .testing := by
                intro retries
                rw [workerPosted, posted]
                rfl
              simp only [AuditAction.process?, Option.toList_some, handle, if_true]
              refine ⟨?_, ?_, ?_⟩
              · rw [queueActions_snoc, poppedBy_append, popped, attemptedBy_snoc, finishes]
                rfl
              · rw [attemptedBy_snoc, List.filterMap_append, ← after, postEventRequest,
                  posted_ledger, stored]
                cases entry : eventEntry shim ev <;> simp [replay, PipelineAction.attempted?, entry]
              · rw [loggedBy_snoc, handedBy_snoc, logged]
                rfl

theorem healthy_records (handle : client.curl = true)
    (started : (auditSystem client useGateway shim size).start source)
    (path : Path ((auditSystem client useGateway shim size).restrict Healthy) source actions state) :
    HealthyRecord shim source.ledger (processActions actions) state := by
  have testing : source.process.auditor.worker = .testing := started.1.2.2.2
  have initially : HealthyRecord shim source.ledger (processActions []) source :=
    ⟨by rw [testing]; rfl, rfl, rfl⟩
  have holds := path.records
    (fun done state => HealthyRecord shim source.ledger (processActions done) state)
    (fun done state action next record taken => by
      have after := healthy_step handle record taken
      have same : processActions (done ++ [action]) = processActions done ++ action.process?.toList := by
        simp [processActions, List.filterMap_eq_flatMap_toList]
      rwa [same])
    [] initially
  rwa [List.nil_append] at holds

theorem healthy_run (handle : client.curl = true)
    (started : (auditSystem client true shim size).start source)
    (path : Path ((auditSystem client true shim size).restrict Healthy) source actions state)
    (joined : state.process.auditor.main = .joined) :
    state.ledger = replay source.ledger
        ((capturedBy (processActions actions)).filterMap (eventEntry shim)) ∧
      state.process.log.getD [] = source.process.log.getD [] ++
        fileText ((capturedBy (processActions actions)).map (auditEventToJson · jsonEventMax)) := by
  obtain ⟨popped, stored, logged⟩ := healthy_records handle started path
  have late := healthyActions_path path
  obtain ⟨callback, record, _, _⟩ := pipeline_records started late.ofRestrict
  have conserved := queueRun_conserves started.1.1
    (queueActions_path (auditorActions_path late.ofRestrict))
  have outside := joined_outside callback joined
  have pushed := record.pushed rfl
  rw [callback.auditor.joined joined] at popped
  rw [conserved, popped, late_emptied started late joined, outside] at pushed
  simp only [WorkerPlace.inFlight, CallbackPlace.unpushed, List.append_nil] at pushed
  refine ⟨by rw [stored, pushed], ?_⟩
  rw [record.logged, logged, ← outside_handed record outside]

/-- The ledger and the local log hold the same lines, each event under its hash. -/
structure Recorded (shim : Shim) (captured : List AuditEvent) (initialLog : Option Bytes)
    (state : AuditState) : Prop where
  log : state.process.log.getD [] =
    initialLog.getD [] ++ fileText (captured.map (auditEventToJson · jsonEventMax))
  stored : ∀ ev ∈ captured, AuditChaincode.queryByHash shim state.ledger
    (some (decodeUtf8 ev.hash.str)) = .ok (auditEventToJson ev jsonEventMax)
  answered : ∀ ev ∈ captured, Handlers.handleEventByHash (units "GET") true
    (FabricClient.queryByHash shim state.ledger) (decodeUtf8 ev.hash.str) =
      ⟨200, .object (carriedMembers ev)⟩

theorem stored_answered (storable : Storable sha256 ev) {ledger : Ledger}
    (stored : AuditChaincode.queryByHash shim ledger (some (decodeUtf8 ev.hash.str)) =
      .ok (auditEventToJson ev jsonEventMax)) :
    Handlers.handleEventByHash (units "GET") true (FabricClient.queryByHash shim ledger)
      (decodeUtf8 ev.hash.str) = ⟨200, .object (carriedMembers ev)⟩ := by
  have hashValid : JavaScript.ValidUtf8 ev.hash.str := storable.valid _ (by simp [AuditEvent.strings])
  have present : ev.hash.str ≠ [] := by
    rw [storable.hash_str, ← List.length_pos_iff, hexDigest_length]
    decide
  have read : FabricClient.queryByHash shim ledger (decodeUtf8 ev.hash.str) =
      .ok (.object (carriedMembers ev)) := by
    rw [FabricClient.queryByHash, stored, auditEventToJson_eq storable.terminated,
      FabricClient.readResult]
    simp [Bind.bind, Except.bind, parse_plain storable.valid storable.plain]
  simp [Handlers.handleEventByHash, decodeUtf8_ne_nil hashValid present, read]

theorem replayed_recorded {captured : List AuditEvent} {initialLedger : Ledger}
    {initialLog : Option Bytes}
    (ledger : state.ledger = replay initialLedger (captured.filterMap (eventEntry shim)))
    (log : state.process.log.getD [] =
      initialLog.getD [] ++ fileText (captured.map (auditEventToJson · jsonEventMax)))
    (storable : ∀ ev ∈ captured, Storable sha256 ev)
    (collisionFree : Set.InjOn sha256 {text | ∃ ev ∈ captured, text = hashText ev}) :
    Recorded shim captured initialLog state := by
  have stored : ∀ ev ∈ captured, AuditChaincode.queryByHash shim state.ledger
      (some (decodeUtf8 ev.hash.str)) = .ok (auditEventToJson ev jsonEventMax) := by
    intro ev member
    have hashValid : JavaScript.ValidUtf8 ev.hash.str :=
      (storable ev member).valid _ (by simp [AuditEvent.strings])
    have keyed : shim.stateKey ((some (decodeUtf8 ev.hash.str)).map Json.string) = .ok ev.hash.str := by
      rw [Option.map_some, stateKey_wellFormed (decide_eq_true (wellFormed_iff.mp
        (decodeUtf8_wellFormed _))), encodeUtf8_decodeUtf8 hashValid]
    have put : (ev.hash.str, auditEventToJson ev jsonEventMax) ∈
        captured.filterMap (eventEntry shim) :=
      List.mem_filterMap.mpr ⟨ev, member, (storable ev member).entry⟩
    obtain ⟨bytes, last⟩ : ∃ bytes, lastPut ev.hash.str (captured.filterMap (eventEntry shim)) =
        some bytes := by
      rw [← Option.ne_none_iff_exists', ne_eq, lastPut_eq_none, not_not]
      exact List.mem_map_of_mem put
    -- a later event under the same hash has the same line
    obtain ⟨other, alsoMember, entry⟩ := List.mem_filterMap.mp (lastPut_mem last)
    rw [(storable other alsoMember).entry, Option.some.injEq, Prod.mk.injEq] at entry
    have same := storable_lines storable collisionFree alsoMember member entry.1
    refine AuditChaincode.queryByHash_ok_iff.mpr ⟨_, keyed, ?_, ?_⟩
    · rw [ledger, replay_getElem?, last, ← entry.2, same]
      rfl
    · rw [auditEventToJson_eq (storable ev member).terminated]
      simp [recordItems, KeyedText.recordText]
  exact ⟨log, stored, fun ev member => stored_answered (storable ev member) (stored ev member)⟩

theorem captured_on_ledger (handle : client.curl = true)
    (started : (auditSystem client true shim size).start source)
    (path : Path ((auditSystem client true shim size).restrict Healthy) source actions state)
    (joined : state.process.auditor.main = .joined)
    (storable : ∀ ev ∈ capturedBy (processActions actions), Storable sha256 ev)
    (collisionFree : Set.InjOn sha256
      {text | ∃ ev ∈ capturedBy (processActions actions), text = hashText ev}) :
    Recorded shim (capturedBy (processActions actions)) source.process.log state := by
  obtain ⟨ledger, log⟩ := healthy_run handle started path joined
  exact replayed_recorded ledger log storable collisionFree

def freshAudit : AuditState where
  process := freshPipeline
  ledger := ∅

theorem freshAudit_starts : (auditSystem client useGateway shim 1).start freshAudit :=
  ⟨freshState_starts, rfl⟩

def oneExchange (shim : Shim) (ev : AuditEvent) : Nat × Ledger :=
  postEvents shim true .acknowledged (auditEventToJson ev jsonEventMax) ∅

def storedAudit (shim : Shim) (ev : AuditEvent) : AuditState where
  process := oneJoined ev
  ledger := (oneExchange shim ev).2

theorem storedAudit_held (storable : Storable sha256 ev) :
    (storedAudit shim ev).ledger[ev.hash.str]? = some (auditEventToJson ev jsonEventMax) := by
  rw [storedAudit, oneExchange, posted_ledger, storable.entry, replay_getElem?]
  simp [lastPut]

def postActions (shim : Shim) (ev : AuditEvent) : List AuditAction :=
  (oneCaptured ev).map .process ++ [.process (.writes ev true),
    .posts ev (.answered true .acknowledged) fun _ => .completed (oneExchange shim ev).1]

def storedActions (shim : Shim) (ev : AuditEvent) : List AuditAction :=
  postActions shim ev ++ joinActions.map .process

theorem process_path {before after : PipelineState} {taken : List PipelineAction}
    (notPosting : ∀ ev network, .posts ev network ∉ taken)
    (healthy : ∀ action ∈ taken, action ≠ .auditor .signal ∧ ∀ ev, action ≠ .writes ev false)
    (path : Path (pipeline client useGateway size) before taken after) (ledger : Ledger) :
    Path ((auditSystem client useGateway shim size).restrict Healthy) ⟨before, ledger⟩
      (taken.map .process) ⟨after, ledger⟩ := by
  induction path with
  | refl _ => exact .refl _
  | @step _ action _ _ _ inside _ ih =>
      obtain ⟨first, others⟩ := List.forall_mem_cons.mp healthy
      refine .step ⟨?_, .process ?_ inside⟩ (ih (fun ev network member =>
        notPosting ev network (List.mem_cons_of_mem _ member)) others)
      · cases action with
        | writes ev opened =>
            cases opened with
            | false => exact absurd rfl (first.2 ev)
            | true => rfl
        | _ => exact fun signal => absurd signal first.1
      · rintro ev network rfl
        exact notPosting ev network List.mem_cons_self

def oneWritten (ev : AuditEvent) : PipelineState := ⟨oneTaken ev, .outside, localLogWrite none ev⟩

def onePosted (ev : AuditEvent) : PipelineState :=
  ⟨{ oneTaken ev with worker := .testing }, .outside, localLogWrite none ev⟩

theorem onePosted_step (handle : client.curl = true) (ev : AuditEvent) (status : Nat) :
    PipelineStep client true (oneWritten ev) (.posts ev fun _ => .completed status) (onePosted ev) := by
  have posted : httpClientPostEvent client (fun _ => .completed status) ev = 0 := by
    rw [httpClientPostEvent, if_neg (by simp [handle])]
    rfl
  have finishes : workerPosted client (fun _ => .completed status) ev retriesMax = .testing := by
    rw [workerPosted, posted]
    rfl
  rw [onePosted, ← finishes]
  exact .posts rfl rfl (.posts rfl)

theorem oneStored_step (handle : client.curl = true) (ev : AuditEvent) {status : Nat}
    {ledger : Ledger} (answer : oneExchange shim ev = (status, ledger)) :
    AuditStep client true shim ⟨oneWritten ev, ∅⟩
      (.posts ev (.answered true .acknowledged) fun _ => .completed status)
      ⟨onePosted ev, ledger⟩ := by
  rw [oneExchange] at answer
  have exchanged : (Fate.answered true .acknowledged).exchange shim ∅
      (postEventRequest client ev).body = (.completed status, ledger) := by
    rw [exchange_answered, postEventRequest, answer]
  have taken : AuditStep client true shim ⟨oneWritten ev, ∅⟩
      (.posts ev (.answered true .acknowledged) fun _ => .completed status)
      ⟨onePosted ev, if client.curl then ledger else ∅⟩ :=
    .posts exchanged rfl (onePosted_step handle ev status)
  rwa [if_pos handle] at taken

def postedAudit (shim : Shim) (ev : AuditEvent) : AuditState where
  process := onePosted ev
  ledger := (oneExchange shim ev).2

theorem postedAudit_held (storable : Storable sha256 ev) :
    (postedAudit shim ev).ledger[ev.hash.str]? = some (auditEventToJson ev jsonEventMax) :=
  storedAudit_held storable

theorem onePosted_path (handle : client.curl = true) (ev : AuditEvent) :
    Path ((auditSystem client true shim 1).restrict Healthy) freshAudit (postActions shim ev)
      (postedAudit shim ev) := by
  have captures : Path ((auditSystem client true shim 1).restrict Healthy) freshAudit
      ((oneCaptured ev).map .process) ⟨⟨oneTaken ev, .writing ev, none⟩, ∅⟩ :=
    process_path (by simp [oneCaptured]) (by simp [oneCaptured]) (oneTaken_path ev) ∅
  have written : ((auditSystem client true shim 1).restrict Healthy).step
      ⟨⟨oneTaken ev, .writing ev, none⟩, ∅⟩ (.process (.writes ev true)) ⟨oneWritten ev, ∅⟩ :=
    ⟨rfl, .process nofun (.writes rfl)⟩
  have stored : ((auditSystem client true shim 1).restrict Healthy).step ⟨oneWritten ev, ∅⟩
      (.posts ev (.answered true .acknowledged) fun _ => .completed (oneExchange shim ev).1)
      ⟨onePosted ev, (oneExchange shim ev).2⟩ := ⟨rfl, oneStored_step handle ev Prod.mk.eta.symm⟩
  exact captures.append (.step written (.single stored))

theorem joined_path (ev : AuditEvent) : Path ((auditSystem client true shim 1).restrict Healthy)
    (postedAudit shim ev) (joinActions.map .process) (storedAudit shim ev) :=
  process_path (by simp [joinActions]) (by simp [joinActions]) (join_path ev) _

theorem storedAudit_path (handle : client.curl = true) (ev : AuditEvent) :
    Path ((auditSystem client true shim 1).restrict Healthy) freshAudit (storedActions shim ev)
      (storedAudit shim ev) :=
  (onePosted_path handle ev).append (joined_path ev)

theorem storedActions_captured (ev : AuditEvent) :
    capturedBy (processActions (storedActions shim ev)) = [ev] := by
  simp [storedActions, postActions, oneCaptured, joinActions, processActions, capturedBy,
    AuditAction.process?, PipelineAction.captured?]

def sealedLs : AuditEvent := sealedEvent (ascii "ls")

theorem sealedLs_storable : Storable (fun _ => idDigest) sealedLs :=
  sealedEvent_storable (by decide) (by decide) (by decide) (by decide)

theorem sealedLs_captured : ∀ ev ∈ capturedBy (processActions (storedActions stringsOnly sealedLs)),
    Storable (fun _ => idDigest) ev := by
  intro ev member
  rw [storedActions_captured, List.mem_singleton] at member
  exact member ▸ sealedLs_storable

theorem sealedLs_collisionFree : Set.InjOn (fun _ => idDigest)
    {text | ∃ ev ∈ capturedBy (processActions (storedActions stringsOnly sealedLs)),
      text = hashText ev} := by
  rw [storedActions_captured]
  rintro first ⟨ev, here, text⟩ second ⟨other, there, otherText⟩ _
  rw [text, otherText, List.mem_singleton.mp here, List.mem_singleton.mp there]

theorem sealedLs_traced :
    freshAudit.ledger[sealedLs.hash.str]? = some (auditEventToJson sealedLs jsonEventMax) ∨
    (∃ ev ∈ capturedBy (processActions (storedActions stringsOnly sealedLs)),
      eventEntry stringsOnly ev =
        some (sealedLs.hash.str, auditEventToJson sealedLs jsonEventMax)) ∨
    ∃ operation eventJSON, .other operation ∈ storedActions stringsOnly sealedLs ∧
      operation.eventJSON = some eventJSON ∧ eventPut stringsOnly eventJSON =
        some (sealedLs.hash.str, auditEventToJson sealedLs jsonEventMax) :=
  have handle : (⟨true, .zero⟩ : HttpClient).curl = true := rfl
  ledger_traced freshAudit_starts (storedAudit_path handle _).ofRestrict
    (storedAudit_held sealedLs_storable)

theorem sealedLs_kept : (storedAudit stringsOnly sealedLs).ledger[sealedLs.hash.str]? =
    some (auditEventToJson sealedLs jsonEventMax) := by
  have handle : (⟨true, .zero⟩ : HttpClient).curl = true := rfl
  have readOnly : ∀ operation, .other operation ∈ storedActions stringsOnly sealedLs →
      operation.eventJSON = none := by
    simp [storedActions, postActions, oneCaptured, joinActions]
  have empty : ∀ (key : StateKey) (bytes : Bytes), freshAudit.ledger[key]? ≠ some bytes := by
    intro key bytes
    rw [freshAudit, Std.ExtTreeMap.getElem?_empty]
    exact nofun
  exact auditor_never_overwrites freshAudit_starts (onePosted_path handle sealedLs).ofRestrict
    (joined_path sealedLs).ofRestrict readOnly sealedLs_captured sealedLs_collisionFree
    (fun _ _ bytes initial => absurd initial (empty _ bytes)) (postedAudit_held sealedLs_storable)

theorem sealedLs_recorded : Recorded stringsOnly
    (capturedBy (processActions (storedActions stringsOnly sealedLs))) none
    (storedAudit stringsOnly sealedLs) :=
  have handle : (⟨true, .zero⟩ : HttpClient).curl = true := rfl
  captured_on_ledger handle freshAudit_starts (storedAudit_path handle _) rfl sealedLs_captured
    sealedLs_collisionFree

end BlockchainAuditor
