import BlockchainAuditor.EventSupplies
import BlockchainAuditor.Capture
import BlockchainAuditor.LedgerTrace
import BlockchainAuditor.AuditMonitor

/-! `cmd_run` and `cmd_stress` as a whole: while `capture_run_command` traces a child, the events
that it calls `event_callback` with go to the log and through the queue to the gateway. -/

namespace BlockchainAuditor

open CStrings JavaScript Transitions Feeds LineReader WaitStatus

/-- One call of `capture_run_command`: what `fork` returned, what the first `waitpid` gave, and
the iterations of the loop so far. -/
structure CaptureCall where
  pid : Int32
  initial : Waited
  turns : List CaptureTurn

/-- The calls with `event_callback` that are still to come, that have returned, and the one
that the main thread is in. -/
structure CaptureCalls where
  left : Nat
  made : List CaptureCall
  current : Option CaptureCall

inductive CaptureAction
  | calls (pid : Int32) (initial : Waited)
  | turns (turn : CaptureTurn) (events : List AuditEvent)
  | returns (rc : Int)

def reportedBy (calls : List TraceCall) : List AuditEvent :=
  (calls.filterMap TraceCall.reported?).flatten

section Supply

variable (sha256 : Bytes → Digest)

def CaptureCall.run (call : CaptureCall) : Option CaptureRun :=
  captureRunCommand sha256 true call.pid call.initial call.turns

def CaptureCall.events (call : CaptureCall) : List AuditEvent :=
  match call.run sha256 with
  | some run => reportedBy run.calls
  | none => []

inductive CaptureStep : CaptureCalls → CaptureAction → CaptureCalls → Prop
  | calls {left made pid initial} : CaptureStep ⟨left + 1, made, none⟩ (.calls pid initial)
      ⟨left, made, some ⟨pid, initial, []⟩⟩
  | turns {left made call turn before iteration} : call.run sha256 = some before →
      before.rc = none → captureLoop sha256 true call.pid [turn] = some iteration →
      CaptureStep ⟨left, made, some call⟩ (.turns turn (reportedBy iteration.calls))
        ⟨left, made, some { call with turns := call.turns ++ [turn] }⟩
  | returns {left made call run rc} : call.run sha256 = some run → run.rc = some rc →
      CaptureStep ⟨left, made, some call⟩ (.returns rc) ⟨left, made ++ [call], none⟩

def CaptureAction.events : CaptureAction → List AuditEvent
  | .turns _ events => events
  | _ => []

def CaptureCalls.allMade (state : CaptureCalls) : Prop := state.left = 0 ∧ state.current = none

/-- `cmd_run` makes one call, and `cmd_stress` makes `count` of them. -/
def captureSupply (count : Nat) : Supply CaptureCalls CaptureAction AuditEvent where
  system :=
    { start := (· = ⟨count, [], none⟩)
      step := CaptureStep sha256 }
  gives := CaptureAction.events
  exhausted := CaptureCalls.allMade
  final := by
    rintro state action next ⟨none, nothing⟩ taken
    cases taken with
    | calls => simp at none
    | turns _ _ _ => simp at nothing
    | returns _ _ => simp at nothing

end Supply

variable {sha256 : Bytes → Digest}

theorem reportedBy_append (first second : List TraceCall) :
    reportedBy (first ++ second) = reportedBy first ++ reportedBy second := by
  simp [reportedBy, List.filterMap_append]

theorem captureLoop_snoc {pid : Int32} {turns : List CaptureTurn} {turn : CaptureTurn}
    {before iteration : CaptureRun} (looped : captureLoop sha256 true pid turns = some before)
    (waits : before.rc = none) (last : captureLoop sha256 true pid [turn] = some iteration) :
    ∃ after, captureLoop sha256 true pid (turns ++ [turn]) = some after ∧
      reportedBy after.calls = reportedBy before.calls ++ reportedBy iteration.calls ∧
      after.rc = iteration.rc := by
  induction turns generalizing before with
  | nil =>
      obtain rfl := Option.some.inj looped
      exact ⟨iteration, last, rfl, rfl⟩
  | cons first rest ih =>
      cases ends : first.ends with
      | true =>
          rw [captureLoop_ends ends] at looped
          obtain rfl := Option.some.inj looped
          simp at waits
      | false =>
          obtain ⟨called, _, steps⟩ := captureLoop_continues sha256 true pid ends
          rw [steps rest, Option.map_eq_some_iff] at looped
          obtain ⟨later, looped, rfl⟩ := looped
          obtain ⟨after, reached, reports, rc⟩ := ih looped waits
          refine ⟨after.after (.cont 0 :: .waitpid first.waited :: called), ?_, ?_, rc⟩
          · rw [List.cons_append, steps, reached]
            rfl
          · simp only [CaptureRun.after, reportedBy_append, reports, List.append_assoc]

theorem captureRunCommand_events {pid : Int32} {initial : Waited} {turns : List CaptureTurn}
    {looped : CaptureRun} (forked : pid ≠ -1)
    (loops : captureLoop sha256 true pid turns = some looped) :
    (CaptureCall.mk pid initial turns).run sha256 =
        some (looped.after [.waitpid initial, .setOptions]) ∧
      (CaptureCall.mk pid initial turns).events sha256 = reportedBy looped.calls := by
  have runs : (CaptureCall.mk pid initial turns).run sha256 =
      some (looped.after [.waitpid initial, .setOptions]) := by
    rw [CaptureCall.run, captureRunCommand_loop initial turns forked, loops]
    rfl
  refine ⟨runs, ?_⟩
  rw [CaptureCall.events, runs]
  rfl

theorem failedFork_run (initial : Waited) (turns : List CaptureTurn) :
    (CaptureCall.mk (-1) initial turns).run sha256 = some ⟨[], some (-1)⟩ := by
  rw [CaptureCall.run, captureRunCommand, if_pos rfl]

/-- A call that has returned, and its events: one for each `PTRACE_EVENT_EXEC` stop at which the
child has a command line. -/
structure Traced (sha256 : Bytes → Digest) (call : CaptureCall) : Prop where
  returned : ∃ run, call.run sha256 = some run ∧ run.rc = some (if call.pid = -1 then -1 else 0)
  reports : ∃ reports, call.events sha256 = reports.flatten ∧
    List.Forall₂ (ReportsExec sha256 true call.pid)
      (if call.pid = -1 then [] else (continuing call.turns).filter CaptureTurn.execs) reports

theorem returned_traced {call : CaptureCall} {run : CaptureRun} {rc : Int}
    (ran : call.run sha256 = some run) (returned : run.rc = some rc) : Traced sha256 call := by
  obtain ⟨pid, initial, turns⟩ := call
  by_cases failed : pid = -1
  · subst failed
    have runs : (CaptureCall.mk (-1) initial turns).run sha256 = _ := failedFork_run initial turns
    refine ⟨⟨_, runs, rfl⟩, [], ?_, .nil⟩
    rw [CaptureCall.events, runs]
    rfl
  · have loops : Completes (captureLoop sha256 true pid turns) (LoopReports sha256 true pid turns) :=
      captureLoop_reports turns
    obtain ⟨looped, loops, _, reports, leaves⟩ := loops
    have command : (CaptureCall.mk pid initial turns).run sha256 = _ ∧ _ :=
      captureRunCommand_events failed loops
    obtain ⟨runs, events⟩ := command
    obtain rfl := Option.some.inj (runs.symm.trans ran)
    have ended : looped.rc = some rc := returned
    refine ⟨⟨_, runs, ?_⟩, _, events, ?_⟩
    · rw [leaves] at ended
      rw [if_neg failed]
      split at ended
      · exact leaves.trans (if_pos ‹_›)
      · simp at ended
    · rw [if_neg failed]
      exact reports

theorem called_silent (pid : Int32) (initial : Waited) :
    (CaptureCall.mk pid initial []).events sha256 = [] := by
  by_cases failed : pid = -1
  · subst failed
    rw [CaptureCall.events, failedFork_run]
    rfl
  · have command : _ ∧ (CaptureCall.mk pid initial []).events sha256 = _ :=
      captureRunCommand_events failed rfl
    exact command.2

theorem iterated_events {call : CaptureCall} {turn : CaptureTurn} {before iteration : CaptureRun}
    (ran : call.run sha256 = some before) (waits : before.rc = none)
    (last : captureLoop sha256 true call.pid [turn] = some iteration) :
    CaptureCall.events sha256 { call with turns := call.turns ++ [turn] } =
      call.events sha256 ++ reportedBy iteration.calls := by
  obtain ⟨pid, initial, turns⟩ := call
  have forked : pid ≠ -1 := by
    rintro rfl
    rw [failedFork_run] at ran
    obtain rfl := Option.some.inj ran
    simp at waits
  have loops : Completes (captureLoop sha256 true pid turns) (LoopReports sha256 true pid turns) :=
    captureLoop_reports turns
  obtain ⟨looped, loops, _⟩ := loops
  have command : (CaptureCall.mk pid initial turns).run sha256 = _ ∧ _ :=
    captureRunCommand_events forked loops
  obtain ⟨runs, events⟩ := command
  obtain rfl := Option.some.inj (runs.symm.trans ran)
  obtain ⟨after, reached, reports, _⟩ := captureLoop_snoc loops waits last
  rw [events, ← reports]
  exact (captureRunCommand_events forked reached).2

structure CaptureRecord (sha256 : Bytes → Digest) (count : Nat) (done : List CaptureAction)
    (state : CaptureCalls) : Prop where
  counted : state.left + (state.made.length + state.current.toList.length) = count
  traced : ∀ call ∈ state.made, Traced sha256 call
  given : done.flatMap CaptureAction.events =
    (state.made ++ state.current.toList).flatMap (CaptureCall.events sha256)

theorem capture_step {count : Nat} {done : List CaptureAction} {state next : CaptureCalls}
    {action : CaptureAction} (record : CaptureRecord sha256 count done state)
    (taken : CaptureStep sha256 state action next) :
    CaptureRecord sha256 count (done ++ [action]) next := by
  obtain ⟨counted, traced, given⟩ := record
  cases taken with
  | @calls left made pid initial =>
      refine ⟨?_, traced, ?_⟩
      · simp only [Option.toList_none, List.length_nil, Option.toList_some,
          List.length_cons] at counted ⊢
        omega
      · rw [List.flatMap_append, given]
        simp [CaptureAction.events, called_silent]
  | turns ran waits last =>
      refine ⟨counted, traced, ?_⟩
      rw [List.flatMap_append, given]
      simp [CaptureAction.events, iterated_events ran waits last]
  | returns ran returned =>
      refine ⟨?_, ?_, ?_⟩
      · simp only [Option.toList_none, List.length_nil, Option.toList_some, List.length_cons,
          List.length_append] at counted ⊢
        omega
      · exact List.forall_mem_append.mpr
          ⟨traced, List.forall_mem_singleton.mpr (returned_traced ran returned)⟩
      · rw [List.flatMap_append, given]
        simp [CaptureAction.events]

theorem capture_records {count : Nat} {source state : CaptureCalls} {actions : List CaptureAction}
    (started : (captureSupply sha256 count).system.start source)
    (path : Path (captureSupply sha256 count).system source actions state) :
    CaptureRecord sha256 count actions state := by
  obtain rfl : source = ⟨count, [], none⟩ := started
  have holds := path.records (CaptureRecord sha256 count)
    (fun _ _ _ _ record taken => capture_step record taken) [] ⟨rfl, by simp, rfl⟩
  rwa [List.nil_append] at holds

variable {client : HttpClient} {useGateway : Bool} {size : Int} {count : Nat}

structure RunRecord (sha256 : Bytes → Digest) (count : Nat) (before : Option Bytes)
    (actions : List (FedAction CaptureAction PipelineAction))
    (state : Fed CaptureCalls PipelineState AuditEvent) : Prop where
  counted : state.supply.left + (state.supply.made.length + state.supply.current.toList.length) = count
  traced : ∀ call ∈ state.supply.made, Traced sha256 call
  logged : ComesToLog
    ((state.supply.made ++ state.supply.current.toList).flatMap (CaptureCall.events sha256)) before
    (consumerActions actions) state.consumer state.pending

theorem run_delivers {source state : Fed CaptureCalls PipelineState AuditEvent}
    {actions : List (FedAction CaptureAction PipelineAction)}
    (started : ((pipelineConsumer client useGateway size).fedBy (captureSupply sha256 count)).start
      source)
    (path : Path ((pipelineConsumer client useGateway size).fedBy (captureSupply sha256 count)) source
      actions state) :
    RunRecord sha256 count source.consumer.log actions state ∧
    (SupplyEnded (captureSupply sha256 count) useGateway state →
      state.supply.made.length = count ∧
      SupplyDelivered client useGateway size (state.supply.made.flatMap (CaptureCall.events sha256))
        source.consumer (consumerActions actions) state.consumer) := by
  obtain ⟨counted, traced, given⟩ := capture_records started.1 (supply_path path)
  refine ⟨⟨counted, traced, ?_⟩, fun ended => ?_⟩
  · rw [← given]
    exact supplied_logged started path
  · obtain ⟨⟨none, nothing⟩, _⟩ := supply_ended started path ended
    have delivered := supplied_delivered started path ended
    have same : (supplyActions actions).flatMap (captureSupply sha256 count).gives =
        (state.supply.made ++ state.supply.current.toList).flatMap (CaptureCall.events sha256) := given
    rw [same, nothing, Option.toList_none, List.append_nil] at delivered
    refine ⟨?_, delivered⟩
    simpa [none, nothing] using counted

/-! The same calls in front of a gateway with its ledger. -/

/-- The auditor, its gateway and the ledger, in runs in which nothing goes wrong. -/
def auditConsumer (client : HttpClient) (shim : Shim) (size : Int) :
    Consumer AuditState AuditAction AuditEvent where
  system := (auditSystem client true shim size).restrict Healthy
  takes action := action.process?.bind PipelineAction.captured?
  idle state := state.process.auditor.main = .producing ∧ state.process.callback = .outside
  closes action := action = .process (.auditor .stops)

theorem fillFromProcess_sealed {host : Host} {pid : Int32} {ev filled : AuditEvent}
    (fills : fillFromProcess host sha256 pid ev = some filled) : Sealed sha256 filled := by
  simp only [fillFromProcess, Option.bind_eq_bind, Option.bind_eq_some_iff] at fills
  obtain ⟨_, _, _, _, _, _, _, _, _, _, _, _, computed⟩ := fills
  obtain rfl := Option.some.inj computed
  exact auditEventComputeHash_sealed _ _

theorem reportEvent_sealed {host : Host} {callback : Bool} {pid returnCode : Int32}
    {events : List AuditEvent} (reports : reportEvent host sha256 callback pid returnCode = some events)
    {ev : AuditEvent} (member : ev ∈ events) : ev.Terminated ∧ Sealed sha256 ev := by
  have completes : Completes (reportEvent host sha256 callback pid returnCode) (AllSealed sha256) :=
    reportEvent_completes pid returnCode
  refine ⟨(completes.holds reports ev member).terminated, ?_⟩
  simp only [reportEvent, Option.bind_eq_bind, Option.bind_eq_some_iff] at reports
  obtain ⟨cmd, _, reports⟩ := reports
  split at reports
  · obtain rfl := Option.some.inj reports
    simp at member
  · simp only [Option.bind_eq_some_iff] at reports
    obtain ⟨_, _, filled, fills, dispatched⟩ := reports
    obtain rfl := Option.some.inj dispatched
    cases callback with
    | false => simp [dispatch] at member
    | true =>
        obtain rfl := List.mem_singleton.mp member
        exact fillFromProcess_sealed fills

theorem traced_sealed {call : CaptureCall} (traced : Traced sha256 call) {ev : AuditEvent}
    (member : ev ∈ call.events sha256) : ev.Terminated ∧ Sealed sha256 ev := by
  obtain ⟨reports, events, each⟩ := traced.reports
  rw [events] at member
  obtain ⟨reported, inReports, member⟩ := List.mem_flatten.mp member
  obtain ⟨index, inside, rfl⟩ := List.getElem_of_mem inReports
  have report := each.get (by rw [each.length_eq]; exact inside) inside
  exact reportEvent_sealed report.called member

theorem auditCaptured_eq (actions : List AuditAction) :
    actions.filterMap (fun action => action.process?.bind PipelineAction.captured?) =
      capturedBy (processActions actions) := by
  rw [capturedBy, processActions, List.filterMap_filterMap]

variable {shim : Shim}

theorem audit_supplied {Supplies SupplyAction : Type} {supply : Supply Supplies SupplyAction AuditEvent}
    {source state : Fed Supplies AuditState AuditEvent}
    {actions : List (FedAction SupplyAction AuditAction)}
    (started : ((auditConsumer client shim size).fedBy supply).start source)
    (path : Path ((auditConsumer client shim size).fedBy supply) source actions state)
    (joined : state.consumer.process.auditor.main = .joined) :
    supply.exhausted state.supply ∧ capturedBy (processActions (consumerActions actions)) =
      (supplyActions actions).flatMap supply.gives := by
  have healthy : Path ((auditSystem client true shim size).restrict Healthy) _ _ _ :=
    consumer_path path
  have starts : (auditSystem client true shim size).start source.consumer := started.2.2
  have stops := left_stops starts (processActions_path healthy.ofRestrict) (by simp [joined])
  obtain ⟨action, member, isStops⟩ := List.mem_filterMap.mp stops
  have closing : action = .process (.auditor .stops) := by
    cases action with
    | process inner => exact congrArg AuditAction.process (Option.some.inj isStops)
    | posts _ _ _ => simp [AuditAction.process?] at isStops
    | other _ => simp [AuditAction.process?] at isStops
  obtain ⟨exhausted, empty⟩ := closed_exhausted path member closing
  have taken := given_taken path
  rw [started.2.1, empty, List.nil_append, List.append_nil] at taken
  exact ⟨exhausted, (auditCaptured_eq _).symm.trans taken.symm⟩

/-- Every program that the traced child executes while it has a command line is in the log and
on the ledger when the run has ended. -/
theorem run_recorded (handle : client.curl = true)
    {source state : Fed CaptureCalls AuditState AuditEvent}
    {actions : List (FedAction CaptureAction AuditAction)}
    (started : ((auditConsumer client shim size).fedBy (captureSupply sha256 count)).start source)
    (path : Path ((auditConsumer client shim size).fedBy (captureSupply sha256 count)) source
      actions state)
    (joined : state.consumer.process.auditor.main = .joined)
    (texts : ∀ call ∈ state.supply.made, ∀ ev ∈ call.events sha256, ev.ValidUtf8 ∧ ev.Plain)
    (collisionFree : Set.InjOn sha256
      {text | ∃ call ∈ state.supply.made, ∃ ev ∈ call.events sha256, text = hashText ev}) :
    state.supply.made.length = count ∧ (∀ call ∈ state.supply.made, Traced sha256 call) ∧
      Recorded shim (state.supply.made.flatMap (CaptureCall.events sha256))
        source.consumer.process.log state.consumer := by
  obtain ⟨counted, traced, given⟩ := capture_records started.1 (supply_path path)
  obtain ⟨⟨none, nothing⟩, captured⟩ := audit_supplied started path joined
  have events : capturedBy (processActions (consumerActions actions)) =
      state.supply.made.flatMap (CaptureCall.events sha256) := by
    refine captured.trans (given.trans ?_)
    rw [nothing, Option.toList_none, List.append_nil]
  have starts : (auditSystem client true shim size).start source.consumer := started.2.2
  obtain ⟨ledger, log⟩ := healthy_run handle starts (consumer_path path) joined
  rw [events] at ledger log
  have storable : ∀ ev ∈ state.supply.made.flatMap (CaptureCall.events sha256), Storable sha256 ev := by
    intro ev member
    obtain ⟨call, made, member⟩ := List.mem_flatMap.mp member
    obtain ⟨terminated, hashed⟩ := traced_sealed (traced call made) member
    exact ⟨terminated, (texts call made ev member).1, (texts call made ev member).2, hashed⟩
  refine ⟨by simpa [none, nothing] using counted, traced,
    replayed_recorded ledger log storable (collisionFree.mono ?_)⟩
  rintro text ⟨ev, member, rfl⟩
  obtain ⟨call, made, member⟩ := List.mem_flatMap.mp member
  exact ⟨call, made, ev, member, rfl⟩

def lsHost : Host :=
  { noonHost with
    fopen := fun path =>
      if path = procPath 42 "cmdline" then some ⟨ascii "ls" ++ [0], false⟩ else none }

def lsCall : CaptureCall where
  pid := 42
  initial := .reported (stoppedBy 19 0)
  turns := [⟨.reported execStop, lsHost⟩, ⟨.reported 0, lsHost⟩]

theorem lsEvents_plain : ∃ ev, reportEvent lsHost (fun _ => idDigest) true 42 0 = some [ev] ∧
    ev.strings.all isPlain = true := by
  have checked : ((reportEvent lsHost (fun _ => idDigest) true 42 0).any fun events =>
      events.length = 1 && events.all fun ev => ev.strings.all isPlain) = true := by decide +kernel
  obtain ⟨events, reports, checked⟩ := (Option.any_eq_true _ _).mp checked
  simp only [Bool.and_eq_true, decide_eq_true_eq] at checked
  obtain ⟨ev, rfl⟩ := List.length_eq_one_iff.mp checked.1
  exact ⟨ev, reports, by simpa using checked.2⟩

def execTurn : CaptureTurn := ⟨.reported execStop, lsHost⟩

def exitTurn : CaptureTurn := ⟨.reported 0, lsHost⟩

theorem execTurn_iteration {ev : AuditEvent}
    (reports : reportEvent lsHost (fun _ => idDigest) true 42 0 = some [ev]) :
    ∃ iteration, captureLoop (fun _ => idDigest) true 42 [execTurn] = some iteration ∧
      reportedBy iteration.calls = [ev] ∧ iteration.rc = none := by
  have goesOn : execTurn.ends = false := by decide
  obtain ⟨called, handles, steps⟩ := captureLoop_continues (fun _ => idDigest) true 42 goesOn
  refine ⟨_, steps [], ?_, rfl⟩
  cases handles with
  | exec _ alsoReports =>
      obtain rfl := Option.some.inj (reports.symm.trans alsoReports)
      rfl
  | exit other => exact absurd other (by decide)
  | other other => exact absurd other (by decide)

def lsActions {Action : Type} (ev : AuditEvent) (first last : List Action) :
    List (FedAction CaptureAction Action) :=
  oneRound [.calls 42 lsCall.initial] (.turns execTurn [ev]) first [.turns exitTurn [], .returns 0] last

theorem ls_path {State Action : Type} {consumer : Consumer State Action AuditEvent}
    {before middle after : State} {first last : List Action} {ev : AuditEvent}
    (reports : reportEvent lsHost (fun _ => idDigest) true 42 0 = some [ev])
    (taken : Taken consumer ev before first middle last after) :
    Path (consumer.fedBy (captureSupply (fun _ => idDigest) 1)) ⟨⟨1, [], none⟩, [], before⟩
      (lsActions ev first last) ⟨⟨0, [lsCall], none⟩, [], after⟩ := by
  obtain ⟨iteration, looped, reported, waits⟩ := execTurn_iteration reports
  have exits : captureLoop (fun _ => idDigest) true 42 [exitTurn] = some _ :=
    captureLoop_ends (by decide) []
  obtain ⟨whole, reached, _, rc⟩ := captureLoop_snoc looped waits exits
  have called : (CaptureCall.mk 42 lsCall.initial []).run (fun _ => idDigest) = _ ∧ _ :=
    captureRunCommand_events (by decide) rfl
  have traced : (CaptureCall.mk 42 lsCall.initial [execTurn]).run (fun _ => idDigest) = _ ∧ _ :=
    captureRunCommand_events (by decide) looped
  have returned : lsCall.run (fun _ => idDigest) = _ ∧ _ :=
    captureRunCommand_events (by decide) reached
  have reporting : CaptureStep (fun _ => idDigest) ⟨0, [], some ⟨42, lsCall.initial, []⟩⟩
      (.turns execTurn [ev]) ⟨0, [], some ⟨42, lsCall.initial, [execTurn]⟩⟩ := by
    rw [← reported]
    exact .turns called.1 rfl looped
  exact oneRound_path taken (.single .calls) (by simp [captureSupply, CaptureAction.events]) reporting
    rfl (.step (.turns traced.1 waits exits) (.single (.returns returned.1 rc)))
    (by simp [captureSupply, CaptureAction.events]) ⟨rfl, rfl⟩

def lsPosts (ev : AuditEvent) : List PipelineAction :=
  oneCaptured ev ++ [.writes ev true, .posts ev fun _ => .completed 201]

theorem lsPosts_path (ev : AuditEvent) :
    Path (pipeline ⟨true, .zero⟩ true 1) freshPipeline (lsPosts ev) (onePosted ev) :=
  (oneTaken_path ev).append (.step (.writes rfl) (.single (onePosted_step rfl ev 201)))

theorem lsPosts_taken (ev : AuditEvent) : Taken (pipelineConsumer ⟨true, .zero⟩ true 1) ev
    freshPipeline (lsPosts ev) (onePosted ev) joinActions (oneJoined ev) where
  idle := ⟨⟨rfl, rfl⟩, ⟨rfl, rfl⟩⟩
  taking := lsPosts_path ev
  takes := rfl
  unclosed := by simp [lsPosts, oneCaptured, pipelineConsumer]
  closing := join_path ev
  takesNone := rfl

theorem postActions_taken (ev : AuditEvent) : Taken (auditConsumer ⟨true, .zero⟩ stringsOnly 1) ev
    freshAudit (postActions stringsOnly ev) (postedAudit stringsOnly ev) (joinActions.map .process)
    (storedAudit stringsOnly ev) where
  idle := ⟨⟨rfl, rfl⟩, ⟨rfl, rfl⟩⟩
  taking := onePosted_path rfl ev
  takes := rfl
  unclosed := by simp [postActions, oneCaptured, auditConsumer]
  closing := joined_path ev
  takesNone := rfl

theorem isPlain_texts {ev : AuditEvent} (plain : ev.strings.all isPlain = true) :
    ev.ValidUtf8 ∧ ev.Plain := by
  have strings : ∀ text ∈ ev.strings, isAscii text = true ∧ text.any mustEscape = false := by
    simpa [isPlain] using plain
  exact ⟨fun text member => validUtf8_ascii (strings text member).1,
    fun text member => (strings text member).2⟩

theorem ls_delivered : ∃ ev, reportEvent lsHost (fun _ => idDigest) true 42 0 = some [ev] ∧
    RunRecord (fun _ => idDigest) 1 none (lsActions ev (lsPosts ev) joinActions)
      ⟨⟨0, [lsCall], none⟩, [], oneJoined ev⟩ ∧
    [lsCall].length = 1 ∧
    SupplyDelivered ⟨true, .zero⟩ true 1 ([lsCall].flatMap (CaptureCall.events fun _ => idDigest))
      freshPipeline (consumerActions (lsActions ev (lsPosts ev) joinActions)) (oneJoined ev) := by
  obtain ⟨ev, reports, _⟩ := lsEvents_plain
  have path : Path ((pipelineConsumer ⟨true, .zero⟩ true 1).fedBy (captureSupply (fun _ => idDigest) 1))
      ⟨⟨1, [], none⟩, [], freshPipeline⟩ (lsActions ev (lsPosts ev) joinActions)
      ⟨⟨0, [lsCall], none⟩, [], oneJoined ev⟩ :=
    ls_path reports (lsPosts_taken ev)
  have started : ((pipelineConsumer ⟨true, .zero⟩ true 1).fedBy
      (captureSupply (fun _ => idDigest) 1)).start ⟨⟨1, [], none⟩, [], freshPipeline⟩ :=
    ⟨rfl, rfl, freshPipeline_starts⟩
  obtain ⟨record, ends⟩ := run_delivers started path
  exact ⟨ev, reports, record, ends rfl⟩

theorem ls_recorded : ∃ ev, reportEvent lsHost (fun _ => idDigest) true 42 0 = some [ev] ∧
    [lsCall].length = 1 ∧ (∀ call ∈ [lsCall], Traced (fun _ => idDigest) call) ∧
    Recorded stringsOnly ([lsCall].flatMap (CaptureCall.events fun _ => idDigest)) none
      (storedAudit stringsOnly ev) := by
  obtain ⟨ev, reports, plain⟩ := lsEvents_plain
  have path : Path ((auditConsumer ⟨true, .zero⟩ stringsOnly 1).fedBy
        (captureSupply (fun _ => idDigest) 1)) ⟨⟨1, [], none⟩, [], freshAudit⟩
      (lsActions ev (postActions stringsOnly ev) (joinActions.map .process))
      ⟨⟨0, [lsCall], none⟩, [], storedAudit stringsOnly ev⟩ :=
    ls_path reports (postActions_taken ev)
  have starts : (pipeline ⟨true, .zero⟩ true 1).start freshPipeline := freshPipeline_starts
  have started : ((auditConsumer ⟨true, .zero⟩ stringsOnly 1).fedBy
      (captureSupply (fun _ => idDigest) 1)).start ⟨⟨1, [], none⟩, [], freshAudit⟩ :=
    ⟨rfl, rfl, starts⟩
  have only : ∀ call ∈ [lsCall], call.events (fun _ => idDigest) = [ev] := by
    have given : [ev] = [lsCall].flatMap (CaptureCall.events fun _ => idDigest) :=
      (capture_records started.1 (supply_path path)).given
    simpa using given.symm
  refine ⟨ev, reports, run_recorded rfl started path rfl ?_ ?_⟩
  · intro call made other member
    rw [only call made] at member
    obtain rfl := List.mem_singleton.mp member
    exact isPlain_texts plain
  · rintro _ ⟨call, made, left, inEvents, rfl⟩ _ ⟨alsoCall, alsoMade, right, alsoIn, rfl⟩ _
    rw [only call made] at inEvents
    rw [only alsoCall alsoMade] at alsoIn
    rw [List.mem_singleton.mp inEvents, List.mem_singleton.mp alsoIn]

end BlockchainAuditor
