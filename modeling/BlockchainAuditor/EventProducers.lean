import BlockchainAuditor.AuditRecords

/-! Every way in which an event comes about: the reports of `capture.c` and
`proc_monitor.c` on a process, and the records of `audit_monitor.c`. -/

namespace BlockchainAuditor

open CStrings CharArray

section Reports

variable (host : Host) (sha256 : Bytes → Digest) (callback : Bool)

def fillFromProcess (pid : Int32) (ev : AuditEvent) : Option AuditEvent := do
  let username ← getUsernameByPid host pid (host.indeterminate 64) 64
  let ev := { ev with user := ← ev.user.copyFrom username.cells (userMax - 1) }
  let cwdPath ← getCwdByPid host pid (host.indeterminate cwdMax) cwdMax
  let ev := { ev with cwd := ← ev.cwd.copyFrom cwdPath.cells (cwdMax - 1) }
  let ts ← getTimestampIso8601 host (host.indeterminate timestampMax) timestampMax
  let ev := { ev with timestamp := ← ev.timestamp.copyFrom ts.cells (timestampMax - 1) }
  return auditEventComputeHash sha256 ev

def noCommand (cmd : CharArray commandMax) : Bool := cmd.cells.head? == some 0

def reportEvent (pid returnCode : Int32) : Option (List AuditEvent) := do
  let cmd ← readProcCmdline host pid .zero commandMax
  if noCommand cmd then return []
  let ev ← auditEventInit (cString (ascii "execve")) cmd.cells pid returnCode
  let ev ← fillFromProcess host sha256 pid ev
  return dispatch callback ev

def captureNewProcess (pid : Int32) : Option (List AuditEvent) := do
  let cmd ← readProcCmdline host pid .zero commandMax
  let cmd ← if noCommand cmd then readProcComm host pid cmd commandMax else pure cmd
  if noCommand cmd then return []
  let ev ← auditEventInit (cString (ascii "process_creation")) cmd.cells pid 0
  let ev ← fillFromProcess host sha256 pid ev
  return dispatch callback ev

end Reports

inductive Producer
  | reportEvent (pid returnCode : Int32)
  | captureNewProcess (pid : Int32)
  | parseExecve (msg : Bytes)
  | parseSyscall (msg : Bytes)
  | parsePath (msg : Bytes)
  | parseUserLogin (msg : Bytes)
  | parseAnomAbend (msg : Bytes)

/-- The events that the callback is called with, or nothing when an access is outside an
array. -/
def Producer.events (host : Host) (sha256 : Bytes → Digest) (callback : Bool) :
    Producer → Option (List AuditEvent)
  | .reportEvent pid returnCode => BlockchainAuditor.reportEvent host sha256 callback pid returnCode
  | .captureNewProcess pid => BlockchainAuditor.captureNewProcess host sha256 callback pid
  | .parseExecve msg => BlockchainAuditor.parseExecve host sha256 callback msg
  | .parseSyscall msg => BlockchainAuditor.parseSyscall host sha256 callback msg
  | .parsePath msg => BlockchainAuditor.parsePath host sha256 callback msg
  | .parseUserLogin msg => BlockchainAuditor.parseUserLogin host sha256 callback msg
  | .parseAnomAbend msg => BlockchainAuditor.parseAnomAbend host sha256 callback msg

variable {host : Host} {sha256 : Bytes → Digest} {callback : Bool} {ev : AuditEvent}

theorem fillFromProcess_completes (pid : Int32) (ended : ev.Ended) :
    Completes (fillFromProcess host sha256 pid ev) (WellSealed sha256) := by
  refine (getUsernameByPid_completes pid (Nat.le_refl _)).bind fun username _ => ?_
  refine (ended.user.copyFrom (by decide) (cells_readable username (by decide))).bind
    fun user userEnded => ?_
  refine (getCwdByPid_completes pid (Nat.le_refl _)).bind fun cwdPath _ => ?_
  refine (ended.cwd.copyFrom (by decide) (cells_readable cwdPath (by decide))).bind
    fun cwd cwdEnded => ?_
  refine (getTimestampIso8601_completes (by decide) _).bind fun ts _ => ?_
  refine (ended.timestamp.copyFrom (by decide) (cells_readable ts (by decide))).bind
    fun timestamp timestampEnded => ?_
  have filled : AuditEvent.Ended { ev with
      user := user
      cwd := cwd
      timestamp := timestamp } :=
    { ended with user := userEnded, cwd := cwdEnded, timestamp := timestampEnded }
  exact completes_pure (computed_wellSealed sha256 filled.terminated)

theorem reported_completes (type : String) (cmd : CharArray commandMax) (pid returnCode : Int32) :
    Completes (do
      if noCommand cmd then return []
      let ev ← auditEventInit (cString (ascii type)) cmd.cells pid returnCode
      let ev ← fillFromProcess host sha256 pid ev
      return dispatch callback ev) (AllSealed sha256) := by
  split
  · exact completes_pure (by simp [AllSealed])
  · refine (auditEventInit_completes pid returnCode (cString_readable _ _)
      (cells_readable cmd (by decide))).bind fun initial ended => ?_
    exact (fillFromProcess_completes pid ended).bind fun _ wellSealed =>
      completes_pure (dispatch_allSealed callback wellSealed)

theorem reportEvent_completes (pid returnCode : Int32) :
    Completes (reportEvent host sha256 callback pid returnCode) (AllSealed sha256) :=
  (readProcCmdline_completes pid (by decide) (Nat.le_refl _)).bind fun cmd _ =>
    reported_completes "execve" cmd pid returnCode

theorem captureNewProcess_completes (pid : Int32) :
    Completes (captureNewProcess host sha256 callback pid) (AllSealed sha256) := by
  refine (readProcCmdline_completes pid (by decide) (Nat.le_refl _)).bind fun cmd _ => ?_
  dsimp only
  split
  · exact (readProcComm_completes pid (by decide) (Nat.le_refl _)).bind fun comm _ =>
      reported_completes "process_creation" comm pid 0
  · have kept : Completes (pure cmd) fun _ => True := completes_pure trivial
    exact kept.bind fun comm _ => reported_completes "process_creation" comm pid 0

theorem producers_seal (host : Host) (sha256 : Bytes → Digest) (callback : Bool)
    (producer : Producer) : ∃ events, producer.events host sha256 callback = some events ∧
      ∀ ev ∈ events, ev.Terminated ∧ ev.hash.str = hexDigest (sha256 (hashText ev)) := by
  have completes : Completes (producer.events host sha256 callback) (AllSealed sha256) := by
    cases producer with
    | reportEvent pid returnCode => exact reportEvent_completes pid returnCode
    | captureNewProcess pid => exact captureNewProcess_completes pid
    | parseExecve msg => exact parseExecve_completes
    | parseSyscall msg => exact parseSyscall_completes
    | parsePath msg => exact parsePath_completes
    | parseUserLogin msg => exact parseUserLogin_completes
    | parseAnomAbend msg => exact parseAnomAbend_completes
  obtain ⟨events, passed, allSealed⟩ := completes
  exact ⟨events, passed, fun ev member => ⟨(allSealed ev member).terminated, (allSealed ev member).hash⟩⟩

end BlockchainAuditor
