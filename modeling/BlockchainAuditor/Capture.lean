import BlockchainAuditor.EventProducers
import BlockchainAuditor.Library.WaitStatus

/-! `capture_run_command` in the parent: the loop over the wait statuses of the traced child,
and `cmd_run`, which reports what it returns. -/

namespace BlockchainAuditor

open CStrings WaitStatus

def ptraceEventExec : BitVec 32 := 4
def ptraceEventExit : BitVec 32 := 6

inductive Waited
  | failed
  | reported (status : Status)
  deriving DecidableEq

structure CaptureTurn where
  waited : Waited
  host : Host

/-- `PTRACE_GETEVENTMSG` stores the exit status in `exit_data`, which is not read. -/
inductive TraceCall
  | setOptions
  | cont (signal : Signal)
  | waitpid (waited : Waited)
  | getEventMsg
  | reportEvent (events : List AuditEvent)
  deriving DecidableEq

/-- `rc` is nothing as long as the loop waits for a status. -/
structure CaptureRun where
  calls : List TraceCall
  rc : Option Int

def CaptureRun.after (calls : List TraceCall) (run : CaptureRun) : CaptureRun :=
  { run with calls := calls ++ run.calls }

section Loop

variable (sha256 : Bytes → Digest) (callback : Bool) (pid : Int32)

def captureLoop : List CaptureTurn → Option CaptureRun
  | [] => some ⟨[.cont 0], none⟩
  | turn :: rest =>
    match turn.waited with
    | .failed => some ⟨[.cont 0, .waitpid .failed], some 0⟩
    | .reported status =>
      let waits : List TraceCall := [.cont 0, .waitpid (.reported status)]
      if wifexited status || wifsignaled status then some ⟨waits, some 0⟩
      else if wifstopped status && wstopsig status == sigtrap then
        let event := highHalf status
        if event = ptraceEventExec then do
          let events ← reportEvent turn.host sha256 callback pid 0
          return (← captureLoop rest).after (waits ++ [.reportEvent events])
        else if event = ptraceEventExit then do
          return (← captureLoop rest).after (waits ++ [.getEventMsg])
        else do return (← captureLoop rest).after waits
      else do return (← captureLoop rest).after waits

/-- `pid` is what `fork` returns, and `initial` what the `waitpid` in front of the loop gives. -/
def captureRunCommand (initial : Waited) (turns : List CaptureTurn) : Option CaptureRun :=
  if pid = -1 then some ⟨[], some (-1)⟩
  else do return (← captureLoop sha256 callback pid turns).after [.waitpid initial, .setOptions]

end Loop

structure RunOutcome where
  rc : Int
  printed : Bytes

def auditResult (command : Bytes) (rc : Int) (elapsed : Bytes) (useGateway : Bool) : Bytes :=
  ascii "\n=== Audit Result ===\nCommand:   " ++ command ++ ascii "\nExit code: " ++ formatInt rc ++
    ascii "\nTime:      " ++ elapsed ++ ascii "s\nGateway:   " ++
    ascii (if useGateway then "enabled" else "disabled (local only)") ++ ascii "\n"

/-- The worker that `cmd_run` starts and joins is that of the auditor's process. -/
def cmdRun (capture : List Bytes → Option Int) (elapsed : Bytes) (argv : List Bytes) :
    Option RunOutcome :=
  let usage : RunOutcome := ⟨1, []⟩
  match argv with
  | [] => some usage
  | first :: rest =>
    let useGateway := first ≠ ascii "--local-only"
    let cmdArgv := if useGateway then argv else rest
    match cmdArgv with
    | [] => some usage
    | command :: _ => do
      let rc ← capture cmdArgv
      return ⟨rc, auditResult command rc elapsed useGateway⟩

def CaptureTurn.ends (turn : CaptureTurn) : Bool :=
  match turn.waited with
  | .failed => true
  | .reported status => ended status

def execStop : Status := stoppedBy 5 4

def CaptureTurn.execs (turn : CaptureTurn) : Bool := turn.waited == .reported execStop

section Iteration

variable {sha256 : Bytes → Digest} {callback : Bool} {pid : Int32}

inductive Handles (sha256 : Bytes → Digest) (callback : Bool) (pid : Int32) (turn : CaptureTurn) :
    List TraceCall → Prop
  | exec {events} : turn.execs = true → reportEvent turn.host sha256 callback pid 0 = some events →
      Handles sha256 callback pid turn [.reportEvent events]
  | exit : turn.execs = false → Handles sha256 callback pid turn [.getEventMsg]
  | other : turn.execs = false → Handles sha256 callback pid turn []

theorem execTest_iff (status : Status) :
    (wifstopped status && wstopsig status == sigtrap) = true ∧ highHalf status = ptraceEventExec ↔
      status = execStop := by
  rw [execStop, eq_stoppedBy_iff, Bool.and_eq_true, beq_iff_eq, ← BitVec.toNat_inj,
    ← BitVec.toNat_inj, and_assoc]
  rfl

theorem captureLoop_ends {turn : CaptureTurn} (ends : turn.ends = true) (rest : List CaptureTurn) :
    captureLoop sha256 callback pid (turn :: rest) =
      some ⟨[.cont 0, .waitpid turn.waited], some 0⟩ := by
  rw [captureLoop]
  unfold CaptureTurn.ends at ends
  split at ends
  · rename_i failed
    rw [failed]
  · rename_i status reported
    rw [reported]
    exact if_pos ends

theorem captureLoop_continues (sha256 : Bytes → Digest) (callback : Bool) (pid : Int32)
    {turn : CaptureTurn} (goesOn : turn.ends = false) :
    ∃ called, Handles sha256 callback pid turn called ∧ ∀ rest,
      captureLoop sha256 callback pid (turn :: rest) =
        (captureLoop sha256 callback pid rest).map
          (.after (.cont 0 :: .waitpid turn.waited :: called)) := by
  obtain ⟨waited, host⟩ := turn
  cases waited with
  | failed => simp [CaptureTurn.ends] at goesOn
  | reported status =>
      have stays : (wifexited status || wifsignaled status) = false := goesOn
      have isExec : CaptureTurn.execs ⟨.reported status, host⟩ = true ↔ status = execStop := by
        simp [CaptureTurn.execs]
      by_cases trapped : (wifstopped status && wstopsig status == sigtrap) = true
      · by_cases exec : highHalf status = ptraceEventExec
        · have completes : Completes (reportEvent host sha256 callback pid 0) _ :=
            reportEvent_completes pid 0
          obtain ⟨events, reports, _⟩ := completes
          have stopped := (execTest_iff status).mp ⟨trapped, exec⟩
          refine ⟨_, .exec (isExec.mpr stopped) reports, fun rest => ?_⟩
          rw [captureLoop]
          simp only [stays, trapped, exec, reports, Bool.false_eq_true, ↓reduceIte,
            Option.bind_eq_bind, Option.bind_some]
          cases captureLoop sha256 callback pid rest <;> rfl
        · have other : CaptureTurn.execs ⟨.reported status, host⟩ = false := by
            rw [← Bool.not_eq_true, isExec, ← execTest_iff]
            exact fun test => exec test.2
          by_cases exits : highHalf status = ptraceEventExit
          · refine ⟨_, .exit other, fun rest => ?_⟩
            rw [captureLoop]
            simp only [stays, trapped, Bool.false_eq_true, ↓reduceIte]
            rw [if_neg exec, if_pos exits]
            cases captureLoop sha256 callback pid rest <;> rfl
          · refine ⟨_, .other other, fun rest => ?_⟩
            rw [captureLoop]
            simp only [stays, trapped, Bool.false_eq_true, ↓reduceIte]
            rw [if_neg exec, if_neg exits]
            cases captureLoop sha256 callback pid rest <;> rfl
      · have other : CaptureTurn.execs ⟨.reported status, host⟩ = false := by
          rw [← Bool.not_eq_true, isExec, ← execTest_iff]
          exact fun test => trapped test.1
        refine ⟨_, .other other, fun rest => ?_⟩
        rw [captureLoop]
        simp only [stays, trapped, Bool.false_eq_true, ↓reduceIte]
        cases captureLoop sha256 callback pid rest <;> rfl

end Iteration

def TraceCall.waited? : TraceCall → Option Waited
  | .waitpid waited => some waited
  | _ => none

def TraceCall.reported? : TraceCall → Option (List AuditEvent)
  | .reportEvent events => some events
  | _ => none

def continuing (turns : List CaptureTurn) : List CaptureTurn := turns.takeWhile fun turn => !turn.ends

/-- One event, if there is a callback and the command line in `/proc` is not empty. -/
structure ReportsExec (sha256 : Bytes → Digest) (callback : Bool) (pid : Int32)
    (turn : CaptureTurn) (events : List AuditEvent) : Prop where
  called : reportEvent turn.host sha256 callback pid 0 = some events
  counted : ∃ cmd, readProcCmdline turn.host pid .zero commandMax = some cmd ∧
    events.length = if callback = true ∧ noCommand cmd = false then 1 else 0

structure LoopReports (sha256 : Bytes → Digest) (callback : Bool) (pid : Int32)
    (turns : List CaptureTurn) (run : CaptureRun) : Prop where
  waits : run.calls.filterMap TraceCall.waited? =
    (continuing turns ++ (turns.find? CaptureTurn.ends).toList).map CaptureTurn.waited
  reports : List.Forall₂ (ReportsExec sha256 callback pid)
    ((continuing turns).filter CaptureTurn.execs) (run.calls.filterMap TraceCall.reported?)
  leaves : run.rc = if turns.any CaptureTurn.ends then some 0 else none

section Runs

variable {sha256 : Bytes → Digest} {callback : Bool} {pid : Int32} {turns : List CaptureTurn}

theorem reportEvent_counted {host : Host} {returnCode : Int32} {events : List AuditEvent}
    (reports : reportEvent host sha256 callback pid returnCode = some events) :
    ∃ cmd, readProcCmdline host pid .zero commandMax = some cmd ∧
      events.length = if callback = true ∧ noCommand cmd = false then 1 else 0 := by
  have completes : Completes (readProcCmdline host pid (.zero : CharArray commandMax) commandMax) _ :=
    readProcCmdline_completes pid (by decide) (Nat.le_refl _)
  obtain ⟨cmd, read, _⟩ := completes
  refine ⟨cmd, read, ?_⟩
  simp only [reportEvent, read, Option.bind_eq_bind, Option.bind_some] at reports
  cases empty : noCommand cmd with
  | true =>
      simp only [empty, ↓reduceIte] at reports
      obtain rfl := Option.some.inj reports
      simp
  | false =>
      simp only [empty, Bool.false_eq_true, ↓reduceIte, Option.bind_eq_some_iff] at reports
      obtain ⟨_, _, ev, _, dispatched⟩ := reports
      obtain rfl := Option.some.inj dispatched
      cases callback <;> simp [dispatch]

theorem captureLoop_reports (turns : List CaptureTurn) :
    Completes (captureLoop sha256 callback pid turns) (LoopReports sha256 callback pid turns) := by
  induction turns with
  | nil => exact completes_some ⟨rfl, .nil, rfl⟩
  | cons turn rest ih =>
      cases ends : turn.ends with
      | true =>
          rw [captureLoop_ends ends]
          refine completes_some ⟨?_, ?_, ?_⟩
          · simp [continuing, ends, List.filterMap_cons, TraceCall.waited?]
          · simp [continuing, ends, List.filterMap_cons, TraceCall.reported?]
          · simp [ends]
      | false =>
          obtain ⟨called, handles, steps⟩ := captureLoop_continues sha256 callback pid ends
          obtain ⟨run, looped, waits, reports, leaves⟩ := ih
          have more : continuing (turn :: rest) = turn :: continuing rest := by
            simp [continuing, ends]
          rw [steps rest, looped]
          refine completes_some ⟨?_, ?_, ?_⟩
          · have silent : called.filterMap TraceCall.waited? = [] := by
              cases handles <;> rfl
            simp [CaptureRun.after, List.filterMap_cons, TraceCall.waited?, more, ends, silent, waits]
          · rw [more]
            cases handles with
            | exec execs called =>
                rw [List.filter_cons_of_pos execs]
                exact .cons ⟨called, reportEvent_counted called⟩ reports
            | exit other | other other =>
                rw [List.filter_cons_of_neg (by simp [other])]
                exact reports
          · simp [CaptureRun.after, ends, leaves]

theorem captureRunCommand_loop (initial : Waited) (turns : List CaptureTurn) (forked : pid ≠ -1) :
    captureRunCommand sha256 callback pid initial turns =
      (captureLoop sha256 callback pid turns).map (.after [.waitpid initial, .setOptions]) := by
  rw [captureRunCommand, if_neg forked]
  cases captureLoop sha256 callback pid turns <;> rfl

theorem execs_reported (initial : Waited) (turns : List CaptureTurn) (forked : pid ≠ -1) :
    ∃ run, captureRunCommand sha256 callback pid initial turns = some run ∧
      run.calls.filterMap TraceCall.waited? = initial ::
        (continuing turns ++ (turns.find? CaptureTurn.ends).toList).map CaptureTurn.waited ∧
      List.Forall₂ (ReportsExec sha256 callback pid)
        ((continuing turns).filter CaptureTurn.execs) (run.calls.filterMap TraceCall.reported?) ∧
      run.rc = if turns.any CaptureTurn.ends then some 0 else none := by
  have loops : Completes (captureLoop sha256 callback pid turns) _ := captureLoop_reports turns
  obtain ⟨run, looped, waits, reports, leaves⟩ := loops
  rw [captureRunCommand_loop initial turns forked, looped]
  refine ⟨_, rfl, ?_, reports, leaves⟩
  rw [← waits]
  rfl

end Runs

def programTurns : List CaptureTurn :=
  [⟨.reported execStop, noonHost⟩, ⟨.reported (stoppedBy 17 0), noonHost⟩, ⟨.reported 768, noonHost⟩]

theorem program_reported :
    ∃ run, captureRunCommand (fun _ => .replicate 32 0) true 42 (.reported (stoppedBy 19 0))
        programTurns = some run ∧
      run.calls.filterMap TraceCall.waited? = .reported (stoppedBy 19 0) ::
        (continuing programTurns ++ (programTurns.find? CaptureTurn.ends).toList).map
          CaptureTurn.waited ∧
      List.Forall₂ (ReportsExec (fun _ => .replicate 32 0) true 42)
        ((continuing programTurns).filter CaptureTurn.execs)
        (run.calls.filterMap TraceCall.reported?) ∧
      run.rc = if programTurns.any CaptureTurn.ends then some 0 else none :=
  execs_reported _ _ (by decide)

section Signals

variable {sha256 : Bytes → Digest} {callback : Bool} {pid : Int32}

def resumptions : Option Status → List TraceCall → List (Status × Signal)
  | _, [] => []
  | _, .waitpid (.reported status) :: rest => resumptions (some status) rest
  | some status, .cont signal :: rest => (status, signal) :: resumptions none rest
  | _, .setOptions :: rest => resumptions none rest
  | last, _ :: rest => resumptions last rest

def CaptureTurn.status? (turn : CaptureTurn) : Option Status :=
  match turn.waited with
  | .failed => none
  | .reported status => some status

def stops (turns : List CaptureTurn) : List Status :=
  ((continuing turns).filterMap CaptureTurn.status?).filter wifstopped

def isEventStop (status : Status) : Prop := wstopsig status = sigtrap ∧ highHalf status ≠ 0

instance (status : Status) : Decidable (isEventStop status) :=
  inferInstanceAs (Decidable (_ ∧ _))

def deliveredSignal (status : Status) : Signal := if isEventStop status then 0 else wstopsig status

/-- Each stop is resumed from, with its own signal unless it is that of an event. -/
def KeepsSignals (turns : List CaptureTurn) (run : CaptureRun) : Prop :=
  (resumptions none run.calls).filter (fun entry => wifstopped entry.1) =
    (stops turns).map fun status => (status, deliveredSignal status)

theorem captureLoop_resumes {turns : List CaptureTurn} {run : CaptureRun}
    (looped : captureLoop sha256 callback pid turns = some run) (last : Option Status) :
    resumptions last run.calls =
      (last.toList ++ (continuing turns).filterMap CaptureTurn.status?).map fun status =>
        (status, 0) := by
  induction turns generalizing run last with
  | nil =>
      obtain rfl := Option.some.inj looped
      cases last <;> rfl
  | cons turn rest ih =>
      cases ends : turn.ends with
      | true =>
          rw [captureLoop_ends ends] at looped
          obtain rfl := Option.some.inj looped
          have none : continuing (turn :: rest) = [] := by simp [continuing, ends]
          rw [none]
          obtain ⟨waited, host⟩ := turn
          cases waited <;> cases last <;> rfl
      | false =>
          obtain ⟨called, handles, steps⟩ := captureLoop_continues sha256 callback pid ends
          have more : continuing (turn :: rest) = turn :: continuing rest := by
            simp [continuing, ends]
          rw [steps rest, Option.map_eq_some_iff] at looped
          obtain ⟨later, looped, rfl⟩ := looped
          obtain ⟨waited, host⟩ := turn
          cases waited with
          | failed => simp [CaptureTurn.ends] at ends
          | reported status =>
              have after := ih looped (some status)
              have passes : resumptions (some status) (called ++ later.calls) =
                  resumptions (some status) later.calls := by
                cases handles <;> rfl
              have resumed : resumptions last (CaptureRun.after
                  (.cont 0 :: .waitpid (.reported status) :: called) later).calls =
                  (last.toList.map fun status => (status, 0)) ++
                    resumptions (some status) (called ++ later.calls) := by
                cases last <;> rfl
              rw [resumed, passes, after, more]
              simp [CaptureTurn.status?]

theorem signals_kept_iff (initial : Waited) (turns : List CaptureTurn) (forked : pid ≠ -1) :
    ∃ run, captureRunCommand sha256 callback pid initial turns = some run ∧
      (KeepsSignals turns run ↔
        ∀ status ∈ stops turns, isEventStop status ∨ wstopsig status = 0) := by
  have loops : Completes (captureLoop sha256 callback pid turns) _ := captureLoop_reports turns
  obtain ⟨run, looped, _⟩ := loops
  rw [captureRunCommand_loop initial turns forked, looped]
  refine ⟨_, rfl, ?_⟩
  have resumed := captureLoop_resumes looped none
  have skipped : resumptions none (CaptureRun.after [.waitpid initial, .setOptions] run).calls =
      resumptions none run.calls := by
    cases initial <;> rfl
  have suppressed : (resumptions none run.calls).filter (fun entry => wifstopped entry.1) =
      (stops turns).map fun status => (status, 0) := by
    rw [resumed, List.filter_map]
    rfl
  rw [KeepsSignals, skipped, suppressed, List.map_inj_left]
  refine forall₂_congr fun status _ => ?_
  simp only [Prod.mk.injEq, true_and, deliveredSignal]
  split
  · rename_i event
    simp [event]
  · rename_i plain
    simp [plain, eq_comm]

theorem sigchld_suppressed : ∃ run, captureRunCommand (fun _ => .replicate 32 0) true 42
      (.reported (stoppedBy 19 0)) programTurns = some run ∧
    (KeepsSignals programTurns run ↔
      ∀ status ∈ stops programTurns, isEventStop status ∨ wstopsig status = 0) :=
  signals_kept_iff _ _ (by decide)

theorem sigterm_dropped : ¬∀ (turns : List CaptureTurn) (run : CaptureRun),
    captureRunCommand (fun _ => .replicate 32 0) true 42 (.reported (stoppedBy 19 0)) turns =
      some run → KeepsSignals turns run := by
  intro kept
  have resumed := kept [⟨.reported (stoppedBy 15 0), noonHost⟩, ⟨.reported 0, noonHost⟩] _ rfl
  revert resumed
  unfold KeepsSignals
  decide

end Signals

section ExitCode

variable {sha256 : Bytes → Digest} {callback : Bool} {pid : Int32}

def ReportsExitCode (code : Int) (run : CaptureRun) : Prop :=
  run.rc = some code ∧ ∀ command args elapsed, command ≠ ascii "--local-only" →
    cmdRun (fun _ => run.rc) elapsed (command :: args) =
      some ⟨code, auditResult command code elapsed true⟩ ∧
    cmdRun (fun _ => run.rc) elapsed (ascii "--local-only" :: command :: args) =
      some ⟨code, auditResult command code elapsed false⟩

theorem cmdRun_reports {run : CaptureRun} {code : Int} (returned : run.rc = some code) :
    ReportsExitCode code run := by
  refine ⟨returned, fun command args elapsed other => ⟨?_, ?_⟩⟩
  · simp [cmdRun, other, returned]
  · simp [cmdRun, returned]

theorem exitCode_iff (initial : Waited) {before : List CaptureTurn} {last : CaptureTurn}
    {status : Status} (forked : pid ≠ -1) (goesOn : ∀ turn ∈ before, turn.ends = false)
    (final : last.waited = .reported status) (exited : wifexited status = true) :
    ∃ run, captureRunCommand sha256 callback pid initial (before ++ [last]) = some run ∧
      run.calls.filterMap TraceCall.waited? =
        initial :: before.map CaptureTurn.waited ++ [.reported status] ∧
      (ReportsExitCode (wexitstatus status).toNat run ↔ wexitstatus status = 0) := by
  have loops : Completes (captureLoop sha256 callback pid (before ++ [last])) _ :=
    captureLoop_reports _
  obtain ⟨run, looped, waits, _, leaves⟩ := loops
  rw [captureRunCommand_loop initial _ forked, looped]
  have ends : last.ends = true := by
    simp [CaptureTurn.ends, final, ended, exited]
  have all : ∀ turn ∈ before, (!turn.ends) = true := fun turn member => by simp [goesOn turn member]
  have front : continuing (before ++ [last]) = before := by
    rw [continuing, List.takeWhile_append_of_pos all]
    simp [ends]
  have first : (before ++ [last]).find? CaptureTurn.ends = some last := by
    rw [List.find?_append, List.find?_eq_none.mpr fun turn member => by simp [goesOn turn member]]
    simp [ends]
  have returned : (CaptureRun.after [.waitpid initial, .setOptions] run).rc = some 0 := by
    change run.rc = some 0
    simpa [ends] using leaves
  refine ⟨_, rfl, ?_, ?_⟩
  · rw [front, first] at waits
    simpa [CaptureRun.after, List.filterMap_cons, TraceCall.waited?, final] using waits
  · rw [← BitVec.toNat_inj]
    constructor
    · rintro ⟨reported, _⟩
      rw [returned, Option.some.injEq] at reported
      exact Int.ofNat.inj reported.symm
    · intro success
      rw [success]
      exact cmdRun_reports returned

end ExitCode

theorem program_exitCode : ∃ run, captureRunCommand (fun _ => .replicate 32 0) true 42
      (.reported (stoppedBy 19 0)) (programTurns.take 2 ++ [⟨.reported 768, noonHost⟩]) = some run ∧
    run.calls.filterMap TraceCall.waited? = .reported (stoppedBy 19 0) ::
      (programTurns.take 2).map CaptureTurn.waited ++ [.reported 768] ∧
    (ReportsExitCode (wexitstatus 768).toNat run ↔ wexitstatus 768 = 0) :=
  exitCode_iff _ (by decide) (by decide) rfl (by decide)

theorem failure_hidden : ¬∀ run, captureRunCommand (fun _ => .replicate 32 0) true 42
    (.reported (stoppedBy 19 0)) [⟨.reported 768, noonHost⟩] = some run → ReportsExitCode 3 run := by
  intro reports
  have returned := (reports _ rfl).1
  revert returned
  decide

end BlockchainAuditor
