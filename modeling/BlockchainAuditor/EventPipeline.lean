import BlockchainAuditor.Library.Repetitions
import BlockchainAuditor.Library.LineFiles
import BlockchainAuditor.LocalLog
import BlockchainAuditor.Signals

/-! The way of an event through the process of `main.c`: `event_callback` pushes it and
writes it to the local log, `worker_thread` pops it and posts it. -/

namespace BlockchainAuditor

open CStrings Transitions LineReader Repetitions

inductive CallbackPlace
  | outside
  | pushing (ev : AuditEvent)
  | writing (ev : AuditEvent)
  deriving DecidableEq

structure PipelineState where
  auditor : AuditorState
  callback : CallbackPlace
  log : Option Bytes

/-- `opened` tells whether `fopen(log_path, "a")` succeeds. -/
inductive PipelineAction
  | captured (ev : AuditEvent)
  | auditor (action : AuditorAction)
  | posts (ev : AuditEvent) (network : Network)
  | writes (ev : AuditEvent) (opened : Bool)

/-- Where the callback is after an action, if that action is possible there: `queue_push` is
called with its event only, and `queue_count` and the end of the loop stand outside it. -/
def CallbackPlace.after (place : CallbackPlace) : AuditorAction → Option CallbackPlace
  | .queue (.pushWaits _ ev) => if place = .pushing ev then some place else none
  | .queue (.pushReturns _ ev _) => if place = .pushing ev then some (.writing ev) else none
  | .queue (.count .main _) => if place = .outside then some place else none
  | .stops => if place = .outside then some place else none
  | .posts _ => none
  | _ => some place

/-- Without `g_use_gateway` there is no worker and nothing is pushed. -/
inductive PipelineStep (client : HttpClient) (useGateway : Bool) :
    PipelineState → PipelineAction → PipelineState → Prop
  | captured {state ev} : state.auditor.main = .producing → state.callback = .outside →
      PipelineStep client useGateway state (.captured ev)
        { state with callback := if useGateway then .pushing ev else .writing ev }
  | auditor {state action auditor callback} : useGateway = true ∨ action = .signal →
      state.callback.after action = some callback → AuditorStep client state.auditor action auditor →
      PipelineStep client useGateway state (.auditor action) { state with auditor, callback }
  | posts {state ev retries network auditor} : useGateway = true →
      state.auditor.worker = .delivering ev retries →
      AuditorStep client state.auditor (.posts network) auditor →
      PipelineStep client useGateway state (.posts ev network) { state with auditor }
  | writes {state ev opened} : state.callback = .writing ev →
      PipelineStep client useGateway state (.writes ev opened)
        { state with
          callback := .outside
          log := if opened then localLogWrite state.log ev else state.log }

def pipeline (client : HttpClient) (useGateway : Bool) (size : Int) :
    System PipelineState PipelineAction where
  start state := (auditor client size).start state.auditor ∧ state.callback = .outside
  step := PipelineStep client useGateway

def PipelineAction.captured? : PipelineAction → Option AuditEvent
  | .captured ev => some ev
  | _ => none

def PipelineAction.handed? : PipelineAction → Option AuditEvent
  | .writes ev _ => some ev
  | _ => none

def PipelineAction.logged? : PipelineAction → Option AuditEvent
  | .writes ev true => some ev
  | _ => none

def PipelineAction.attempted? : PipelineAction → Option AuditEvent
  | .posts ev _ => some ev
  | _ => none

def PipelineAction.auditor? : PipelineAction → Option AuditorAction
  | .auditor action => some action
  | .posts _ network => some (.posts network)
  | _ => none

def capturedBy (actions : List PipelineAction) : List AuditEvent :=
  actions.filterMap PipelineAction.captured?

def handedBy (actions : List PipelineAction) : List AuditEvent :=
  actions.filterMap PipelineAction.handed?

def loggedBy (actions : List PipelineAction) : List AuditEvent :=
  actions.filterMap PipelineAction.logged?

def attemptedBy (actions : List PipelineAction) : List AuditEvent :=
  actions.filterMap PipelineAction.attempted?

def auditorActions (actions : List PipelineAction) : List AuditorAction :=
  actions.filterMap PipelineAction.auditor?

section Records

variable (done : List PipelineAction) (action : PipelineAction)

theorem capturedBy_snoc :
    capturedBy (done ++ [action]) = capturedBy done ++ action.captured?.toList := by
  simp [capturedBy, List.filterMap_eq_flatMap_toList]

theorem handedBy_snoc :
    handedBy (done ++ [action]) = handedBy done ++ action.handed?.toList := by
  simp [handedBy, List.filterMap_eq_flatMap_toList]

theorem loggedBy_snoc : loggedBy (done ++ [action]) = loggedBy done ++ action.logged?.toList := by
  simp [loggedBy, List.filterMap_eq_flatMap_toList]

theorem attemptedBy_snoc :
    attemptedBy (done ++ [action]) = attemptedBy done ++ action.attempted?.toList := by
  simp [attemptedBy, List.filterMap_eq_flatMap_toList]

theorem queueActions_snoc : queueActions (auditorActions (done ++ [action])) =
    queueActions (auditorActions done) ++ queueActions action.auditor?.toList := by
  simp [queueActions, auditorActions, List.filterMap_eq_flatMap_toList]

end Records

def CallbackPlace.unpushed : CallbackPlace → List AuditEvent
  | .pushing ev => [ev]
  | _ => []

def CallbackPlace.unwritten : CallbackPlace → List AuditEvent
  | .outside => []
  | .pushing ev => [ev]
  | .writing ev => [ev]

def WorkerPlace.inFlight : WorkerPlace → List AuditEvent
  | .delivering ev _ => [ev]
  | _ => []

def WorkerPlace.tried : WorkerPlace → List AuditEvent
  | .delivering ev retries => List.replicate (retriesMax - retries) ev
  | _ => []

variable {client : HttpClient} {useGateway : Bool} {size : Int} {source state next : PipelineState}
  {action : PipelineAction} {actions : List PipelineAction}

/-- What the process does besides the callback is a run of the process without it. -/
def pipelineRefines (client : HttpClient) (useGateway : Bool) (size : Int) :
    Simulation (pipeline client useGateway size) (auditor client size) where
  related state image := image = state.auditor
  observe action := action.auditor?.toList
  initially state started := ⟨state.auditor, started.1, rfl⟩
  replays state image action next related taken := by
    subst related
    cases taken with
    | auditor _ _ inside => exact ⟨_, .single inside, rfl⟩
    | posts _ _ inside => exact ⟨_, .single inside, rfl⟩
    | _ => exact ⟨_, .refl _, rfl⟩

theorem auditorActions_path (path : Path (pipeline client useGateway size) source actions state) :
    Path (auditor client size) source.auditor (auditorActions actions) state.auditor := by
  obtain ⟨final, replay, related⟩ := (pipelineRefines client useGateway size).run path rfl
  have same : actions.flatMap (pipelineRefines client useGateway size).observe =
      auditorActions actions := List.filterMap_eq_flatMap_toList _ _ |>.symm
  rw [same, show final = state.auditor from related] at replay
  exact replay

theorem CallbackPlace.after_cases {place callback : CallbackPlace} {action : AuditorAction}
    (allowed : place.after action = some callback) :
    (∃ thread ev rc, action = .queue (.pushReturns thread ev rc) ∧ place = .pushing ev ∧
      callback = .writing ev) ∨
    ((∀ thread ev rc, action ≠ .queue (.pushReturns thread ev rc)) ∧
      (∀ network, action ≠ .posts network) ∧ callback = place) := by
  unfold CallbackPlace.after at allowed
  split at allowed
  · split at allowed
    · exact Or.inr ⟨nofun, nofun, (Option.some.inj allowed).symm⟩
    · cases allowed
  · split at allowed
    · rename_i ev _ pushing
      exact Or.inl ⟨_, ev, _, rfl, pushing, (Option.some.inj allowed).symm⟩
    · cases allowed
  · split at allowed
    · exact Or.inr ⟨nofun, nofun, (Option.some.inj allowed).symm⟩
    · cases allowed
  · split at allowed
    · exact Or.inr ⟨nofun, nofun, (Option.some.inj allowed).symm⟩
    · cases allowed
  · cases allowed
  · rename_i other _ _ notPosting
    refine Or.inr ⟨?_, notPosting, (Option.some.inj allowed).symm⟩
    rintro thread ev rc rfl
    exact other thread ev rc rfl

theorem after_returns (thread : Role) (ev : AuditEvent) (rc : Int) :
    (CallbackPlace.pushing ev).after (.queue (.pushReturns thread ev rc)) = some (.writing ev) :=
  if_pos rfl

theorem inFlight_step {auditor after : AuditorState} {action : AuditorAction}
    (taken : AuditorStep client auditor action after) (notPosting : ∀ network, action ≠ .posts network) :
    after.worker.inFlight = auditor.worker.inFlight ++ poppedBy (queueActions [action]) ∧
      after.worker.tried = auditor.worker.tried ∧
      ∀ ev left, after.worker = .delivering ev left →
        auditor.worker = .delivering ev left ∨ left = retriesMax := by
  cases taken with
  | @main action _ _ _ allowed _ =>
      have unpopped : poppedBy [action] = [] := by
        rcases mainAfter_cases allowed with ⟨producing, rfl, _⟩ | ⟨_, _, _, rfl⟩ | ⟨_, _, rfl⟩
        · rw [producing] at allowed
          cases action <;> first | rfl | simp [mainAfter] at allowed
        · rfl
        · rfl
      exact ⟨by simp [queueActions, AuditorAction.queue?, unpopped], rfl, fun _ _ same => Or.inl same⟩
  | worker _ allowed _ =>
      rcases workerAfter_cases allowed with ⟨_, value, counting, rfl, rfl⟩ | ⟨_, popping, rfl, rfl⟩ |
        ⟨_, ev, popping, rfl, rfl⟩ | ⟨_, popping, rfl, rfl⟩ | ⟨_, rfl, rfl⟩
      · dsimp only
        rw [counting]
        split
        · exact ⟨rfl, rfl, fun _ _ same => by cases same⟩
        · exact ⟨rfl, rfl, fun _ _ same => by cases same⟩
      · dsimp only
        rw [popping]
        exact ⟨rfl, rfl, fun _ _ same => by cases same⟩
      · dsimp only
        rw [popping]
        refine ⟨rfl, rfl, fun other left same => Or.inr ?_⟩
        cases same
        rfl
      · dsimp only
        rw [popping]
        exact ⟨rfl, rfl, fun _ _ same => by cases same⟩
      · exact ⟨(List.append_nil _).symm, rfl, fun _ _ same => Or.inl same⟩
  | stops _ _ => exact ⟨(List.append_nil _).symm, rfl, fun _ _ same => Or.inl same⟩
  | joins _ _ => exact ⟨(List.append_nil _).symm, rfl, fun _ _ same => Or.inl same⟩
  | signal => exact ⟨(List.append_nil _).symm, rfl, fun _ _ same => Or.inl same⟩
  | tests testing =>
      dsimp only
      rw [testing]
      split
      · exact ⟨rfl, rfl, fun _ _ same => by cases same⟩
      · exact ⟨rfl, rfl, fun _ _ same => by cases same⟩
  | posts _ => exact absurd rfl (notPosting _)

theorem pushReturns_accepted {auditor after : AuditorState} (invariant : AuditorInvariant auditor)
    {thread : Role} {ev : AuditEvent} {rc : Int}
    (taken : AuditorStep client auditor (.queue (.pushReturns thread ev rc)) after) : rc = 0 := by
  cases taken with
  | @main _ shared _ _ allowed critical =>
      have producing : auditor.main = .producing := by
        rcases mainAfter_cases allowed with ⟨producing, _⟩ | ⟨_, _, _, other⟩ | ⟨_, _, other⟩
        · exact producing
        · cases other
        · cases other
      have effect := critical.effect
      generalize shared.queue = queue at effect
      cases effect with
      | accepted _ _ => rfl
      | rejected closed => simp [invariant.shutdownMain, producing] at closed
  | worker _ allowed _ => simp [workerAfter] at allowed

/-! What a run has captured so far is accounted for, event by event and in order. -/

structure CallbackInvariant (state : PipelineState) : Prop where
  auditor : AuditorInvariant state.auditor
  looping : state.callback ≠ .outside → state.auditor.main = .producing

theorem callback_step (invariant : CallbackInvariant state)
    (taken : (pipeline client useGateway size).step state action next) : CallbackInvariant next := by
  cases taken with
  | captured producing _ => exact ⟨invariant.auditor, fun _ => producing⟩
  | writes _ => exact ⟨invariant.auditor, fun inside => absurd rfl inside⟩
  | posts _ _ inside =>
      have stepped : (auditor client size).step _ _ _ := inside
      refine ⟨auditorStep_invariant invariant.auditor stepped, fun within => ?_⟩
      cases inside with
      | posts _ => exact invariant.looping within
  | auditor _ allowed inside =>
      have stepped : (auditor client size).step _ _ _ := inside
      refine ⟨auditorStep_invariant invariant.auditor stepped, fun within => ?_⟩
      have producing : state.auditor.main = .producing := by
        rcases CallbackPlace.after_cases allowed with ⟨_, _, _, _, pushing, _⟩ | ⟨_, _, rfl⟩
        · exact invariant.looping (by simp [pushing])
        · exact invariant.looping within
      cases inside with
      | main _ after _ =>
          rcases mainAfter_cases after with ⟨_, rfl, _⟩ | ⟨stopped, _⟩ | ⟨rfl, _⟩
          · rfl
          · simp [producing] at stopped
          · exact producing
      | stops _ _ =>
          have outside : state.callback = .outside := by
            by_contra other
            simp [CallbackPlace.after, other] at allowed
          simp [CallbackPlace.after, outside] at allowed
          exact absurd allowed.symm within
      | joins closed _ => simp [producing] at closed
      | _ => exact producing

theorem callback_initially (started : (pipeline client useGateway size).start state) :
    CallbackInvariant state :=
  ⟨auditor_initially started.1, fun inside => absurd started.2 inside⟩

/-- The events in `event_callback`, and those that it is through with. -/
structure CallbackRecord (useGateway : Bool) (initialLog : Option Bytes)
    (done : List PipelineAction) (state : PipelineState) : Prop where
  returned : ∀ thread ev rc, .auditor (.queue (.pushReturns thread ev rc)) ∈ done → rc = 0
  pushed : useGateway = true → capturedBy done =
    acceptedBy (queueActions (auditorActions done)) ++ state.callback.unpushed
  handed : capturedBy done = handedBy done ++ state.callback.unwritten
  logged : state.log.getD [] = initialLog.getD [] ++
    fileText ((loggedBy done).map (auditEventToJson · jsonEventMax))

theorem acceptedBy_append {α Tid : Type} (first second : List (QueueAction Tid α)) :
    acceptedBy (first ++ second) = acceptedBy first ++ acceptedBy second :=
  List.filterMap_append

theorem poppedBy_append {α Tid : Type} (first second : List (QueueAction Tid α)) :
    poppedBy (first ++ second) = poppedBy first ++ poppedBy second :=
  List.filterMap_append

variable {initialLog : Option Bytes} {done : List PipelineAction}

theorem unaccepted {action : AuditorAction}
    (other : ∀ thread ev rc, action ≠ .queue (.pushReturns thread ev rc)) :
    acceptedBy (queueActions [action]) = [] := by
  cases action with
  | queue inner =>
      cases inner with
      | pushReturns thread ev rc => exact absurd rfl (other thread ev rc)
      | _ => rfl
  | _ => rfl

theorem record_step (invariant : CallbackInvariant state)
    (record : CallbackRecord useGateway initialLog done state)
    (taken : (pipeline client useGateway size).step state action next) :
    CallbackRecord useGateway initialLog (done ++ [action]) next := by
  obtain ⟨returned, pushed, handed, logged⟩ := record
  cases taken with
  | @captured ev _ outside =>
      rw [outside] at pushed handed
      refine ⟨by simpa using returned, ?_, ?_, ?_⟩
      · intro gateway
        rw [capturedBy_snoc, queueActions_snoc, pushed gateway]
        simp [gateway, CallbackPlace.unpushed, PipelineAction.captured?, PipelineAction.auditor?,
          queueActions]
      · rw [capturedBy_snoc, handedBy_snoc, handed]
        cases useGateway <;>
          simp [CallbackPlace.unwritten, PipelineAction.captured?, PipelineAction.handed?]
      · rw [loggedBy_snoc]
        simpa [PipelineAction.logged?] using logged
  | @writes ev opened writing =>
      rw [writing] at pushed handed
      refine ⟨by simpa using returned, ?_, ?_, ?_⟩
      · intro gateway
        rw [capturedBy_snoc, queueActions_snoc, pushed gateway]
        simp [CallbackPlace.unpushed, PipelineAction.captured?, PipelineAction.auditor?, queueActions]
      · rw [capturedBy_snoc, handedBy_snoc, handed]
        simp [CallbackPlace.unwritten, PipelineAction.captured?, PipelineAction.handed?]
      · rw [loggedBy_snoc]
        cases opened with
        | false => simpa [PipelineAction.logged?] using logged
        | true => simp [PipelineAction.logged?, localLogWrite, logged, fileText]
  | posts _ _ _ =>
      refine ⟨by simpa using returned, ?_, ?_, ?_⟩
      · intro gateway
        rw [capturedBy_snoc, queueActions_snoc, acceptedBy_append, pushed gateway]
        simp [PipelineAction.captured?, PipelineAction.auditor?, unaccepted]
      · rw [capturedBy_snoc, handedBy_snoc]
        simpa [PipelineAction.captured?, PipelineAction.handed?] using handed
      · rw [loggedBy_snoc]
        simpa [PipelineAction.logged?] using logged
  | @auditor action _ callback _ allowed inside =>
      have kept : state.callback.unwritten = callback.unwritten := by
        rcases CallbackPlace.after_cases allowed with ⟨_, _, _, _, pushing, rfl⟩ | ⟨_, _, rfl⟩
        · rw [pushing]
          rfl
        · rfl
      refine ⟨?_, ?_, ?_, ?_⟩
      · intro thread ev rc member
        rcases List.mem_append.mp member with before | last
        · exact returned thread ev rc before
        · obtain rfl : .queue (.pushReturns thread ev rc) = action := by simpa using last
          exact pushReturns_accepted invariant.auditor inside
      · intro gateway
        rw [capturedBy_snoc, queueActions_snoc, acceptedBy_append, pushed gateway]
        rcases CallbackPlace.after_cases allowed with ⟨_, ev, rc, rfl, pushing, rfl⟩ | ⟨other, _, rfl⟩
        · obtain rfl := pushReturns_accepted invariant.auditor inside
          rw [pushing]
          simp [CallbackPlace.unpushed, PipelineAction.captured?, PipelineAction.auditor?, acceptedBy,
            queueActions, AuditorAction.queue?, QueueAction.accepted?]
        · simp [PipelineAction.captured?, PipelineAction.auditor?, unaccepted other]
      · rw [capturedBy_snoc, handedBy_snoc, handed, kept]
        simp [PipelineAction.captured?, PipelineAction.handed?]
      · rw [loggedBy_snoc]
        simpa [PipelineAction.logged?] using logged

structure Attempts (done : List PipelineAction) (worker : WorkerPlace) (finished : List AuditEvent) :
    Prop where
  popped : poppedBy (queueActions (auditorActions done)) = finished ++ worker.inFlight
  repeated : ∃ tried, Repeats retriesMax finished tried ∧ attemptedBy done = tried ++ worker.tried
  retries : ∀ ev left, worker = .delivering ev left → left ≤ retriesMax

theorem posted_attempts {ev : AuditEvent} {retries : Nat} {network : Network}
    {finished : List AuditEvent} (attempts : Attempts done (.delivering ev retries) finished)
    (positive : 0 < retries) : ∃ finished,
      Attempts (done ++ [.posts ev network]) (workerPosted client network ev retries) finished := by
  obtain ⟨popped, ⟨tried, repeats, attempted⟩, bounded⟩ := attempts
  have most := bounded ev retries rfl
  have unpopped : poppedBy (queueActions (auditorActions (done ++ [.posts ev network]))) =
      finished ++ [ev] := by
    rw [queueActions_snoc, poppedBy_append, popped]
    exact List.append_nil _
  have once : attemptedBy (done ++ [.posts ev network]) =
      tried ++ List.replicate (retriesMax - retries + 1) ev := by
    rw [attemptedBy_snoc, attempted, List.append_assoc, List.replicate_succ']
    rfl
  unfold workerPosted
  dsimp only
  by_cases again : 0 < retriesAfter (httpClientPostEvent client network ev) retries
  · have left : retriesAfter (httpClientPostEvent client network ev) retries = retries - 1 := by
      unfold retriesAfter at again ⊢
      split at again
      · omega
      · rw [if_neg ‹_›]
    rw [if_pos again, left]
    refine ⟨finished, unpopped, ⟨tried, repeats, ?_⟩, ?_⟩
    · have more : retriesMax - (retries - 1) = retriesMax - retries + 1 := by omega
      rw [once, WorkerPlace.tried, more]
    · rintro other left same
      cases same
      omega
  · rw [if_neg again]
    have last : Repeats retriesMax [ev] (List.replicate (retriesMax - retries + 1) ev) :=
      .single (Nat.succ_pos _) (by omega)
    refine ⟨finished ++ [ev], ?_, ⟨_, repeats.append last, ?_⟩, nofun⟩
    · rw [unpopped]
      exact (List.append_nil _).symm
    · rw [once]
      exact (List.append_nil _).symm

theorem popped_step (taken : PipelineStep client useGateway state action next)
    (notPosting : ∀ ev network, action ≠ .posts ev network) :
    next.auditor.worker.inFlight =
      state.auditor.worker.inFlight ++ poppedBy (queueActions action.auditor?.toList) := by
  cases taken with
  | captured _ _ => exact (List.append_nil _).symm
  | writes _ => exact (List.append_nil _).symm
  | posts _ _ _ => exact absurd rfl (notPosting _ _)
  | auditor _ allowed inside =>
      refine (inFlight_step inside ?_).1
      rcases CallbackPlace.after_cases allowed with ⟨_, _, _, rfl, _⟩ | ⟨_, other, _⟩
      · exact nofun
      · exact other

theorem attempts_step {finished : List AuditEvent} (invariant : CallbackInvariant state)
    (attempts : Attempts done state.auditor.worker finished)
    (taken : (pipeline client useGateway size).step state action next) :
    ∃ finished, Attempts (done ++ [action]) next.auditor.worker finished := by
  obtain ⟨popped, repeated, retries⟩ := id attempts
  cases taken with
  | captured _ _ =>
      refine ⟨finished, ?_, ?_, retries⟩
      · rw [queueActions_snoc]
        exact (congrArg poppedBy (List.append_nil _)).trans popped
      · rw [attemptedBy_snoc]
        simpa [PipelineAction.attempted?] using repeated
  | writes _ =>
      refine ⟨finished, ?_, ?_, retries⟩
      · rw [queueActions_snoc]
        exact (congrArg poppedBy (List.append_nil _)).trans popped
      · rw [attemptedBy_snoc]
        simpa [PipelineAction.attempted?] using repeated
  | posts _ delivering inside =>
      cases inside with
      | posts alsoDelivering =>
          obtain ⟨rfl, rfl⟩ := WorkerPlace.delivering.inj (delivering.symm.trans alsoDelivering)
          rw [delivering] at attempts
          exact posted_attempts attempts (invariant.auditor.retries _ _ delivering)
  | @auditor action _ _ _ allowed inside =>
      have notPosting : ∀ network, action ≠ .posts network := by
        rcases CallbackPlace.after_cases allowed with ⟨_, _, _, rfl, _⟩ | ⟨_, notPosting, _⟩
        · exact nofun
        · exact notPosting
      obtain ⟨inFlight, tried, bounded⟩ := inFlight_step inside notPosting
      refine ⟨finished, ?_, ?_, ?_⟩
      · rw [queueActions_snoc, poppedBy_append, popped, List.append_assoc]
        exact congrArg (finished ++ ·) inFlight.symm
      · rw [attemptedBy_snoc, tried]
        simpa [PipelineAction.attempted?] using repeated
      · intro ev left place
        rcases bounded ev left place with before | full
        · exact retries ev left before
        · exact full.le

theorem unsent_step (sent : useGateway = false → attemptedBy done = [])
    (taken : (pipeline client useGateway size).step state action next) :
    useGateway = false → attemptedBy (done ++ [action]) = [] := by
  intro without
  rw [attemptedBy_snoc, sent without]
  cases taken with
  | posts gateway _ _ => simp [without] at gateway
  | _ => rfl

theorem pipeline_records (started : (pipeline client useGateway size).start source)
    (path : Path (pipeline client useGateway size) source actions state) :
    CallbackInvariant state ∧ CallbackRecord useGateway source.log actions state ∧
      (∃ finished, Attempts actions state.auditor.worker finished) ∧
      (useGateway = false → attemptedBy actions = []) := by
  have initially : CallbackRecord useGateway source.log [] source := by
    have outside : source.callback = .outside := started.2
    refine ⟨by simp, fun _ => ?_, ?_, (List.append_nil _).symm⟩
    · rw [outside]
      rfl
    · rw [outside]
      rfl
  have nothing : Attempts [] source.auditor.worker [] := by
    have testing : source.auditor.worker = .testing := started.1.2.2.2
    rw [testing]
    exact ⟨rfl, ⟨[], .nil, rfl⟩, nofun⟩
  have holds := path.records
    (fun done state => CallbackInvariant state ∧ CallbackRecord useGateway source.log done state ∧
      (∃ finished, Attempts done state.auditor.worker finished) ∧
      (useGateway = false → attemptedBy done = []))
    (fun done state action next before taken => by
      obtain ⟨invariant, record, ⟨finished, attempts⟩, unsent⟩ := before
      exact ⟨callback_step invariant taken, record_step invariant record taken,
        attempts_step invariant attempts taken, unsent_step unsent taken⟩)
    [] ⟨callback_initially started, initially, ⟨[], nothing⟩, fun _ => rfl⟩
  rwa [List.nil_append] at holds

theorem captured_split (started : (pipeline client true size).start source)
    (path : Path (pipeline client true size) source actions state) :
    ∃ finished, Attempts actions state.auditor.worker finished ∧
      capturedBy actions = finished ++ state.auditor.worker.inFlight ++
        state.auditor.shared.queue.contents ++ state.callback.unpushed := by
  obtain ⟨_, record, ⟨finished, attempts⟩, _⟩ := pipeline_records started path
  refine ⟨finished, attempts, ?_⟩
  have conserved := queueRun_conserves started.1.1 (queueActions_path (auditorActions_path path))
  rw [record.pushed rfl, conserved, attempts.popped]

theorem attempted_captured (started : (pipeline client useGateway size).start source)
    (path : Path (pipeline client useGateway size) source actions state) {ev : AuditEvent}
    (attempted : ev ∈ attemptedBy actions) : ev ∈ capturedBy actions := by
  cases useGateway with
  | false =>
      obtain ⟨_, _, _, unsent⟩ := pipeline_records started path
      simp [unsent rfl] at attempted
  | true =>
      obtain ⟨finished, ⟨_, ⟨tried, repeats, split⟩, _⟩, captured⟩ := captured_split started path
      rw [split, List.mem_append, repeats.mem_iff] at attempted
      simp only [captured, List.mem_append]
      rcases attempted with done | again
      · exact Or.inl (Or.inl (Or.inl done))
      · refine Or.inl (Or.inl (Or.inr ?_))
        cases place : state.auditor.worker with
        | delivering other left =>
            rw [place] at again
            obtain ⟨_, rfl⟩ := List.mem_replicate.mp again
            exact List.mem_singleton_self _
        | _ => simp [place, WorkerPlace.tried] at again

/-- Where every captured event is: delivered, given up, in flight, queued or about to be
pushed, and handed to `local_log_write` or about to be. -/
structure Accounted (useGateway : Bool) (initialLog : Option Bytes) (actions : List PipelineAction)
    (state : PipelineState) : Prop where
  record : CallbackRecord useGateway initialLog actions state
  events : useGateway = true → ∃ finished, Attempts actions state.auditor.worker finished ∧
    capturedBy actions = finished ++ state.auditor.worker.inFlight ++
      state.auditor.shared.queue.contents ++ state.callback.unpushed
  unsent : useGateway = false → attemptedBy actions = []

theorem pipeline_accounts (started : (pipeline client useGateway size).start source)
    (path : Path (pipeline client useGateway size) source actions state) :
    Accounted useGateway source.log actions state := by
  obtain ⟨_, record, _, unsent⟩ := pipeline_records started path
  refine ⟨record, ?_, unsent⟩
  rintro rfl
  exact captured_split started path

def freshPipeline : PipelineState where
  auditor := freshState
  callback := .outside
  log := none

theorem freshPipeline_starts : (pipeline client useGateway 1).start freshPipeline :=
  ⟨freshState_starts, rfl⟩

def oneTaken (ev : AuditEvent) : AuditorState where
  shared :=
    { queue := (freshQueue.enqueue ev).dequeue, threads := setThread filledThreads .worker .outside }
  running := true
  main := .producing
  worker := .delivering ev retriesMax

def oneCaptured (ev : AuditEvent) : List PipelineAction :=
  [.captured ev, .auditor (.queue (.pushReturns .main ev 0)), .auditor (.tests true),
    .auditor (.queue (.popReturns .worker (some ev)))]

theorem onePushed_step (ev : AuditEvent) : QueueStep freshState.shared (.pushReturns .main ev 0)
    { queue := freshQueue.enqueue ev, threads := filledThreads } := by
  refine .pushAccepted (Or.inl rfl) rfl (Or.inr ⟨fun role => ?_, rfl⟩)
  exact congrArg Thread.waitsNotEmpty (filledThreads_outside role)

theorem oneTaken_step (ev : AuditEvent) :
    QueueStep { queue := freshQueue.enqueue ev, threads := filledThreads }
      (.popReturns .worker (some ev)) (oneTaken ev).shared := by
  have idle : ∀ role, setThread filledThreads .worker .outside role = .outside := by
    intro role
    cases role <;> rfl
  refine .popTakes (Or.inl ⟨filledThreads_outside .worker, rfl⟩) (Or.inr ⟨fun role => ?_, rfl⟩)
  exact congrArg Thread.waitsNotFull (idle role)

theorem oneTaken_path (ev : AuditEvent) : Path (pipeline client true 1) freshPipeline
    (oneCaptured ev) ⟨oneTaken ev, .writing ev, none⟩ :=
  .step (.captured rfl rfl) (.step (.auditor (Or.inl rfl) (after_returns _ _ _) (.main rfl rfl
    (onePushed_step ev))) (.step (.auditor (Or.inl rfl) rfl (.tests rfl)) (.single (.auditor (Or.inl rfl)
      rfl (.worker rfl rfl (oneTaken_step ev))))))

theorem oneTaken_accounted : Accounted true none (oneCaptured .zero)
    ⟨oneTaken .zero, .writing .zero, none⟩ :=
  have path : Path (pipeline ⟨true, .zero⟩ true 1) freshPipeline (oneCaptured .zero)
    ⟨oneTaken .zero, .writing .zero, none⟩ := oneTaken_path .zero
  pipeline_accounts freshPipeline_starts path

/-- A signal is handled only behind the producing loop. -/
def SignalsBehind (state : PipelineState) (action : PipelineAction) : Prop :=
  action = .auditor .signal → state.auditor.main ≠ .producing

theorem lateActions_path
    (path : Path ((pipeline client useGateway size).restrict SignalsBehind) source actions state) :
    Path ((auditor client size).restrict SignalsLate) source.auditor (auditorActions actions)
      state.auditor := by
  induction path with
  | refl _ => exact .refl _
  | step taken _ ih =>
      obtain ⟨behind, taken⟩ := taken
      cases taken with
      | auditor _ _ inside =>
          exact .step ⟨fun signal => behind (congrArg PipelineAction.auditor signal), inside⟩ ih
      | posts _ _ inside => exact .step ⟨nofun, inside⟩ ih
      | _ => exact ih

theorem joined_outside (invariant : CallbackInvariant state)
    (joined : state.auditor.main = .joined) : state.callback = .outside := by
  by_contra inside
  simp [invariant.looping inside] at joined

theorem outside_handed (record : CallbackRecord useGateway initialLog done state)
    (outside : state.callback = .outside) : handedBy done = capturedBy done := by
  have handed := record.handed
  rw [outside] at handed
  simpa only [CallbackPlace.unwritten, List.append_nil] using handed.symm

/-- `local_log_write` was called with `events`: the log grows by the lines of those for which its
`fopen` succeeds. -/
structure LogGrown (before : Option Bytes) (actions : List PipelineAction) (events : List AuditEvent)
    (after : Option Bytes) : Prop where
  handed : handedBy actions = events
  logged : (loggedBy actions).Sublist events
  complete : (∀ ev, .writes ev false ∉ actions) → loggedBy actions = events
  content : after.getD [] =
    before.getD [] ++ fileText ((loggedBy actions).map (auditEventToJson · jsonEventMax))

theorem loggedBy_sublist (actions : List PipelineAction) :
    (loggedBy actions).Sublist (handedBy actions) := by
  induction actions with
  | nil => exact .slnil
  | cons action actions ih =>
      match action with
      | .writes ev true => exact ih.cons_cons ev
      | .writes ev false => exact ih.cons ev
      | .captured _ => exact ih
      | .auditor _ => exact ih
      | .posts _ _ => exact ih

theorem opened_logged (opened : ∀ ev, .writes ev false ∉ actions) :
    loggedBy actions = handedBy actions := by
  refine List.filterMap_congr fun action member => ?_
  match action with
  | .writes ev true => rfl
  | .writes ev false => exact absurd member (opened ev)
  | .captured _ => rfl
  | .auditor _ => rfl
  | .posts _ _ => rfl

theorem handed_grows (record : CallbackRecord useGateway initialLog done state) :
    LogGrown initialLog done (handedBy done) state.log :=
  ⟨rfl, loggedBy_sublist done, opened_logged, record.logged⟩

theorem joined_posted (started : (pipeline client true size).start source)
    (path : Path (pipeline client true size) source actions state)
    (joined : state.auditor.main = .joined) :
    ∃ finished, capturedBy actions = finished ++ state.auditor.shared.queue.contents ∧
      Repeats retriesMax finished (attemptedBy actions) := by
  obtain ⟨callback, _, _, _⟩ := pipeline_records started path
  obtain ⟨finished, ⟨_, ⟨tried, repeats, attempted⟩, _⟩, captured⟩ := captured_split started path
  rw [callback.auditor.joined joined, joined_outside callback joined] at captured
  rw [callback.auditor.joined joined] at attempted
  simp only [WorkerPlace.inFlight, CallbackPlace.unpushed, List.append_nil] at captured
  simp only [WorkerPlace.tried, List.append_nil] at attempted
  exact ⟨finished, captured, by rwa [attempted]⟩

theorem late_emptied (started : (pipeline client useGateway size).start source)
    (late : Path ((pipeline client useGateway size).restrict SignalsBehind) source actions state)
    (joined : state.auditor.main = .joined) : state.auditor.shared.queue.contents = [] := by
  have atEnd := (lateActions_path late).preserves LateInvariant
    (fun _ _ _ before taken => late_step before taken) (late_initially started.1)
  exact (late_outlives atEnd).joined joined

/-- When the worker is joined, `local_log_write` was called with every captured event, those in
front were posted and the others are still queued: none, unless a signal came while events were
captured. -/
theorem process_ends (started : (pipeline client true size).start source)
    (path : Path (pipeline client true size) source actions state)
    (joined : state.auditor.main = .joined) :
    LogGrown source.log actions (capturedBy actions) state.log ∧
    (∃ finished, capturedBy actions = finished ++ state.auditor.shared.queue.contents ∧
      Repeats retriesMax finished (attemptedBy actions)) ∧
    (Path ((pipeline client true size).restrict SignalsBehind) source actions state →
      Repeats retriesMax (capturedBy actions) (attemptedBy actions)) := by
  obtain ⟨callback, record, _, _⟩ := pipeline_records started path
  obtain ⟨finished, captured, delivered⟩ := joined_posted started path joined
  have grown := handed_grows record
  rw [outside_handed record (joined_outside callback joined)] at grown
  refine ⟨grown, ⟨finished, captured, delivered⟩, fun late => ?_⟩
  rw [captured, late_emptied started late joined, List.append_nil]
  exact delivered

def oneJoined (ev : AuditEvent) : PipelineState where
  auditor :=
    { shared :=
        { queue := queueShutdown (freshQueue.enqueue ev).dequeue
          threads := broadcast (setThread filledThreads .worker .outside) }
      running := false
      main := .joined
      worker := .exited }
  callback := .outside
  log := localLogWrite none ev

def joinActions : List PipelineAction :=
  [.auditor .stops, .auditor (.queue (.shutdown .main)), .auditor (.tests false),
    .auditor (.queue (.count .worker 0)), .auditor .joins]

theorem join_path (ev : AuditEvent) : Path (pipeline client true 1)
    ⟨{ oneTaken ev with worker := .testing }, .outside, localLogWrite none ev⟩ joinActions
    (oneJoined ev) :=
  .step (.auditor (Or.inl rfl) rfl (.stops rfl rfl)) (.step (.auditor (Or.inl rfl) rfl
    (.main rfl rfl (.shutdown rfl))) (.step (.auditor (Or.inl rfl) rfl (.tests rfl))
      (.step (.auditor (Or.inl rfl) rfl (.worker rfl rfl (.count rfl)))
        (.single (.auditor (Or.inl rfl) rfl (.joins rfl rfl))))))

def oneDelivered : List PipelineAction :=
  oneCaptured .zero ++ [.writes .zero true, .posts .zero fun _ => .completed 201] ++ joinActions

theorem oneDelivered_path :
    Path (pipeline ⟨true, .zero⟩ true 1) freshPipeline oneDelivered (oneJoined .zero) := by
  refine ((oneTaken_path .zero).append (.step (.writes rfl) (.single ?_))).append (join_path .zero)
  exact .posts rfl rfl (.posts rfl)

theorem oneEvent_ends :
    LogGrown none oneDelivered (capturedBy oneDelivered) (localLogWrite none .zero) ∧
    (∃ finished, capturedBy oneDelivered =
        finished ++ (oneJoined .zero).auditor.shared.queue.contents ∧
      Repeats retriesMax finished (attemptedBy oneDelivered)) ∧
    (Path ((pipeline ⟨true, .zero⟩ true 1).restrict SignalsBehind) freshPipeline oneDelivered
        (oneJoined .zero) →
      Repeats retriesMax (capturedBy oneDelivered) (attemptedBy oneDelivered)) :=
  process_ends freshPipeline_starts oneDelivered_path rfl

end BlockchainAuditor
