import BlockchainAuditor.IntegrityCheck
import BlockchainAuditor.Procfs

/-! The record handlers of `audit_monitor.c`: the fields they take out of a message of the
Linux audit system, and the events they dispatch. -/

namespace BlockchainAuditor

open CStrings KeyedText

def atol (text : Bytes) : Int :=
  max (-2 ^ 63) (min (2 ^ 63 - 1) ((scanInteger (text ++ [0])).getD 0))

variable (host : Host)

/-- The string in the allocated memory, or nothing for a null pointer. The message is
given without its NUL. -/
def fieldStr (msg key : Bytes) : Option Bytes :=
  let pattern := snprintf 128 (key ++ ascii "=\"")
  match strstr pattern msg with
  | none => none
  | some found =>
    let start := found.drop pattern.length
    if quote ∈ start then
      let len := min (start.takeWhile (· ≠ quote)).length (commandMax - 1)
      if host.malloc key then some (start.take len) else none
    else none

def fieldLong (msg key : Bytes) : Int :=
  match strstr (snprintf 128 (ascii " " ++ key ++ ascii "=")) msg with
  | some p => atol (p.drop (key.length + 2))
  | none =>
    match strstr (snprintf 128 (key ++ ascii "=")) msg with
    | some p => atol (p.drop (key.length + 1))
    | none => 0

def toPid (value : Int) : Int32 := Int32.ofInt value

def toUid (value : Int) : UInt32 := UInt32.ofInt value

def replaceCommand (value : Option Bytes) (ev : AuditEvent) : Option AuditEvent :=
  match value with
  | some text => do
    return { ev with command := ← ev.command.copyFrom (cString text) (commandMax - 1) }
  | none => some ev

def AuditEvent.hasCommand (ev : AuditEvent) : Bool := ev.command.cells.head? != some 0

def setUser (msg key : Bytes) (ev : AuditEvent) : Option AuditEvent := do
  let uidVal := fieldLong msg key
  match host.getpwuid (toUid uidVal) with
  | some name => return { ev with user := ← ev.user.copyFrom (cString name) (userMax - 1) }
  | none => return { ev with user := ← ev.user.print userMax (formatInt uidVal) }

def rewriteCommand (bufSize : Nat) (text : Bytes) (ev : AuditEvent) : Option AuditEvent := do
  let buf ← (host.indeterminate bufSize).print bufSize text
  return { ev with command := ← ev.command.copyFrom buf.cells (commandMax - 1) }

variable (sha256 : Bytes → Digest)

def fillAuditEvent (ev : AuditEvent) : Option AuditEvent := do
  let ts ← getTimestampIso8601 host (host.indeterminate timestampMax) timestampMax
  let ev := { ev with timestamp := ← ev.timestamp.copyFrom ts.cells (timestampMax - 1) }
  let ev ←
    if 0 < ev.pid then do
      let cwdPath ← getCwdByPid host ev.pid (host.indeterminate cwdMax) cwdMax
      pure { ev with cwd := ← ev.cwd.copyFrom cwdPath.cells (cwdMax - 1) }
    else pure ev
  return auditEventComputeHash sha256 ev

/-- The events that the callback, if there is one, is called with. -/
def dispatch (callback : Bool) (ev : AuditEvent) : List AuditEvent := if callback then [ev] else []

variable (callback : Bool)

def parseExecve (msg : Bytes) : Option (List AuditEvent) := do
  let ev ← auditEventInit (cString (ascii "execve")) (cString msg) 0 0
  let ev := { ev with pid := toPid (fieldLong msg (ascii "pid")) }
  let ev ← replaceCommand (fieldStr host msg (ascii "exe")) ev
  let ev ←
    if ev.hasCommand then pure ev else replaceCommand (fieldStr host msg (ascii "comm")) ev
  let ev ← setUser host msg (ascii "uid") ev
  let ev ← fillAuditEvent host sha256 ev
  return dispatch callback ev

def interestingSyscalls : List Int :=
  [2, 257, 85, 3, 0, 1, 9, 10, 11, 56, 57, 58, 59, 322, 29, 62, 49, 50, 43, 42, 82, 87, 88]

def parseSyscall (msg : Bytes) : Option (List AuditEvent) := do
  let nr := fieldLong msg (ascii "syscall")
  let exitVal := fieldLong msg (ascii "exit")
  if nr ∉ interestingSyscalls then return []
  let exe := fieldStr host msg (ascii "exe")
  let comm := fieldStr host msg (ascii "comm")
  let numbers := ascii "(syscall=" ++ formatInt nr ++ ascii " exit=" ++ formatInt exitVal ++
    ascii ")"
  let text :=
    match exe, comm with
    | some name, _ => name ++ ascii " " ++ numbers
    | none, some name => name ++ ascii " " ++ numbers
    | none, none => numbers
  let cmd ← (host.indeterminate commandMax).print commandMax text
  let ev ← auditEventInit (cString (ascii "syscall")) cmd.cells 0 0
  let ev := { ev with pid := toPid (fieldLong msg (ascii "pid")) }
  let ev ← setUser host msg (ascii "uid") ev
  let ev ← fillAuditEvent host sha256 ev
  return dispatch callback ev

def parsePath (msg : Bytes) : Option (List AuditEvent) := do
  let some name := fieldStr host msg (ascii "name") | return []
  let ev ← auditEventInit (cString (ascii "file_access")) (cString name) 0 0
  let ev := { ev with pid := toPid (fieldLong msg (ascii "pid")) }
  let ev ← setUser host msg (ascii "ouid") ev
  let ev ←
    match fieldStr host msg (ascii "nametype") with
    | some nt => do
      let text := (← ev.command.readStr) ++ ascii " (" ++ nt ++ ascii ")"
      rewriteCommand host (commandMax + 64) text ev
    | none => pure ev
  let ev ← fillAuditEvent host sha256 ev
  return dispatch callback ev

def parseUserLogin (msg : Bytes) : Option (List AuditEvent) := do
  let ev ← auditEventInit (cString (ascii "user_login")) (cString msg) 0 0
  let ev := { ev with pid := toPid (fieldLong msg (ascii "pid")) }
  let ev ← replaceCommand (fieldStr host msg (ascii "exe")) ev
  let ev ←
    match (fieldStr host msg (ascii "addr")).or (fieldStr host msg (ascii "hostname")) with
    | some address => do
      let name ← if ev.hasCommand then ev.command.readStr else pure (ascii "(unknown)")
      rewriteCommand host (commandMax + 128) (name ++ ascii " from " ++ address) ev
    | none => pure ev
  let ev ← setUser host msg (ascii "uid") ev
  let ev ←
    match fieldStr host msg (ascii "res") with
    | some res => do
      let text := (← ev.command.readStr) ++ ascii " [" ++ res ++ ascii "]"
      rewriteCommand host (commandMax + 64) text ev
    | none => pure ev
  let ev ← fillAuditEvent host sha256 ev
  return dispatch callback ev

def parseAnomAbend (msg : Bytes) : Option (List AuditEvent) := do
  let ev ← auditEventInit (cString (ascii "process_crash")) (cString msg) 0 0
  let ev := { ev with pid := toPid (fieldLong msg (ascii "pid")) }
  let ev ← replaceCommand (fieldStr host msg (ascii "exe")) ev
  let ev ←
    if ev.hasCommand then pure ev else replaceCommand (fieldStr host msg (ascii "comm")) ev
  let sigBuf := snprintf 64 (ascii " signal=" ++ formatInt (fieldLong msg (ascii "sig")))
  let ev ←
    if (← ev.command.readStr).length + sigBuf.length < commandMax - 1 then do
      pure { ev with command := ← ev.command.strcat sigBuf }
    else pure ev
  let ev ← setUser host msg (ascii "uid") ev
  let ev ← fillAuditEvent host sha256 ev
  return dispatch callback ev

structure AuditEvent.Ended (ev : AuditEvent) : Prop where
  eventType : ev.eventType.Ended
  command : ev.command.Ended
  user : ev.user.Ended
  cwd : ev.cwd.Ended
  timestamp : ev.timestamp.Ended
  hash : ev.hash.Ended

theorem AuditEvent.Ended.terminated {ev : AuditEvent} (ended : ev.Ended) : ev.Terminated where
  eventType := ended.eventType.terminated
  command := ended.command.terminated
  user := ended.user.terminated
  cwd := ended.cwd.terminated
  timestamp := ended.timestamp.terminated
  hash := ended.hash.terminated

structure WellSealed (sha256 : Bytes → Digest) (ev : AuditEvent) : Prop where
  terminated : ev.Terminated
  hash : ev.hash.str = hexDigest (sha256 (hashText ev))

theorem computed_wellSealed (sha256 : Bytes → Digest) {ev : AuditEvent} (terminated : ev.Terminated) :
    WellSealed sha256 (auditEventComputeHash sha256 ev) where
  terminated := auditEventComputeHash_terminated sha256 terminated
  hash := by
    have text : hashText (auditEventComputeHash sha256 ev) = hashText ev := rfl
    rw [text, auditEventComputeHash, sha256Hash_str, snprintf_fits (hashText_length terminated)]

theorem auditEventInit_completes {type cmd : Bytes} (pid returnCode : Int32)
    (typeReadable : 0 ∈ type ∨ eventTypeMax - 1 ≤ type.length)
    (cmdReadable : 0 ∈ cmd ∨ commandMax - 1 ≤ cmd.length) :
    Completes (auditEventInit type cmd pid returnCode) AuditEvent.Ended := by
  have unknown := cString_readable (ascii "unknown") (userMax - 1)
  have root := cString_readable (ascii "/") (cwdMax - 1)
  refine ((CharArray.zero_ended (by decide)).copyFrom (by decide) typeReadable).bind
    fun eventType eventTypeEnded => ?_
  refine ((CharArray.zero_ended (by decide)).copyFrom (by decide) cmdReadable).bind
    fun command commandEnded => ?_
  refine ((CharArray.zero_ended (by decide)).copyFrom (by decide) unknown).bind
    fun user userEnded => ?_
  refine ((CharArray.zero_ended (by decide)).copyFrom (by decide) root).bind
    fun cwd cwdEnded => ?_
  exact completes_pure {
    eventType := eventTypeEnded
    command := commandEnded
    user := userEnded
    cwd := cwdEnded
    timestamp := CharArray.zero_ended (by decide)
    hash := CharArray.zero_ended (by decide) }

variable {host : Host} {sha256 : Bytes → Digest} {ev : AuditEvent}

theorem replaceCommand_completes (value : Option Bytes) (ended : ev.Ended) :
    Completes (replaceCommand value ev) AuditEvent.Ended := by
  unfold replaceCommand
  split
  · rename_i text
    refine (ended.command.copyFrom (by decide) (cString_readable text _)).bind
      fun command commandEnded => ?_
    exact completes_pure { ended with command := commandEnded }
  · exact completes_some ended

theorem setUser_completes (msg key : Bytes) (ended : ev.Ended) :
    Completes (setUser host msg key ev) AuditEvent.Ended := by
  unfold setUser
  dsimp only
  split
  · rename_i name _
    refine (ended.user.copyFrom (by decide) (cString_readable name _)).bind
      fun user userEnded => ?_
    exact completes_pure { ended with user := userEnded }
  · refine (ended.user.print _ (Nat.le_refl _)).bind fun user userEnded => ?_
    exact completes_pure { ended with user := userEnded }

theorem rewriteCommand_completes {bufSize : Nat} (text : Bytes) (room : commandMax - 1 ≤ bufSize)
    (ended : ev.Ended) : Completes (rewriteCommand host bufSize text ev) AuditEvent.Ended := by
  refine (print_completes text (Nat.le_refl _)).bind fun buf _ => ?_
  refine (ended.command.copyFrom (by decide) (cells_readable buf room)).bind
    fun command commandEnded => ?_
  exact completes_pure { ended with command := commandEnded }

theorem fillAuditEvent_completes (ended : ev.Ended) :
    Completes (fillAuditEvent host sha256 ev) (WellSealed sha256) := by
  refine (getTimestampIso8601_completes (by decide) _).bind fun ts _ => ?_
  refine (ended.timestamp.copyFrom (by decide) (cells_readable ts (by decide))).bind
    fun timestamp timestampEnded => ?_
  have timed : AuditEvent.Ended { ev with timestamp := timestamp } :=
    { ended with timestamp := timestampEnded }
  dsimp only
  split
  · refine (getCwdByPid_completes _ (Nat.le_refl _)).bind fun cwdPath _ => ?_
    refine (timed.cwd.copyFrom (by decide) (cells_readable cwdPath (by decide))).bind
      fun cwd cwdEnded => ?_
    have placed : AuditEvent.Ended { ev with timestamp := timestamp, cwd := cwd } :=
      { timed with cwd := cwdEnded }
    exact completes_pure (computed_wellSealed sha256 placed.terminated)
  · exact completes_pure (computed_wellSealed sha256 timed.terminated)

def AllSealed (sha256 : Bytes → Digest) (events : List AuditEvent) : Prop :=
  ∀ ev ∈ events, WellSealed sha256 ev

theorem dispatch_allSealed (callback : Bool) (wellSealed : WellSealed sha256 ev) :
    AllSealed sha256 (dispatch callback ev) := by
  intro other member
  unfold dispatch at member
  split at member
  · obtain rfl := List.mem_singleton.mp member
    exact wellSealed
  · simp at member

theorem filled_completes (callback : Bool) (ended : ev.Ended) :
    Completes (do return dispatch callback (← fillAuditEvent host sha256 ev))
      (AllSealed sha256) :=
  (fillAuditEvent_completes ended).bind fun _ wellSealed =>
    completes_pure (dispatch_allSealed callback wellSealed)

variable {callback : Bool} {msg : Bytes}

theorem AuditEvent.Ended.withPid (ended : ev.Ended) (pid : Int32) :
    AuditEvent.Ended { ev with pid } := { ended with }

theorem parseExecve_completes : Completes (parseExecve host sha256 callback msg)
    (AllSealed sha256) := by
  refine (auditEventInit_completes 0 0 (cString_readable _ _) (cString_readable _ _)).bind
    fun initial initialEnded => ?_
  refine (replaceCommand_completes _ (initialEnded.withPid _)).bind fun named namedEnded => ?_
  dsimp only
  split
  · exact (setUser_completes _ _ namedEnded).bind fun _ ended => filled_completes callback ended
  · refine (replaceCommand_completes _ namedEnded).bind fun again againEnded => ?_
    exact (setUser_completes _ _ againEnded).bind fun _ ended => filled_completes callback ended

theorem parseSyscall_completes : Completes (parseSyscall host sha256 callback msg)
    (AllSealed sha256) := by
  unfold parseSyscall
  dsimp only
  split
  · exact completes_pure (by simp [AllSealed])
  · refine (print_completes _ (Nat.le_refl _)).bind fun cmd _ => ?_
    refine (auditEventInit_completes 0 0 (cString_readable _ _)
      (cells_readable cmd (by decide))).bind fun initial initialEnded => ?_
    exact (setUser_completes _ _ (initialEnded.withPid _)).bind
      fun _ ended => filled_completes callback ended

theorem parsePath_completes : Completes (parsePath host sha256 callback msg)
    (AllSealed sha256) := by
  unfold parsePath
  split
  · rename_i name _
    refine (auditEventInit_completes 0 0 (cString_readable _ _) (cString_readable _ _)).bind
      fun initial initialEnded => ?_
    refine (setUser_completes _ _ (initialEnded.withPid _)).bind fun named namedEnded => ?_
    dsimp only
    split
    · refine namedEnded.command.readStr.bind fun text _ => ?_
      exact (rewriteCommand_completes _ (by decide) namedEnded).bind
        fun _ ended => filled_completes callback ended
    · exact (completes_pure namedEnded).bind fun _ ended => filled_completes callback ended
  · exact completes_pure (by simp [AllSealed])

theorem parseUserLogin_completes : Completes (parseUserLogin host sha256 callback msg)
    (AllSealed sha256) := by
  have finished : ∀ ev : AuditEvent, ev.Ended → Completes (do
      let ev ← setUser host msg (ascii "uid") ev
      let ev ←
        match fieldStr host msg (ascii "res") with
        | some res => do
          let text := (← ev.command.readStr) ++ ascii " [" ++ res ++ ascii "]"
          rewriteCommand host (commandMax + 64) text ev
        | none => pure ev
      let ev ← fillAuditEvent host sha256 ev
      return dispatch callback ev) (AllSealed sha256) := by
    intro ev ended
    refine (setUser_completes _ _ ended).bind fun named namedEnded => ?_
    dsimp only
    split
    · refine namedEnded.command.readStr.bind fun text _ => ?_
      exact (rewriteCommand_completes _ (by decide) namedEnded).bind
        fun _ ended => filled_completes callback ended
    · exact (completes_pure namedEnded).bind fun _ ended => filled_completes callback ended
  refine (auditEventInit_completes 0 0 (cString_readable _ _) (cString_readable _ _)).bind
    fun initial initialEnded => ?_
  refine (replaceCommand_completes _ (initialEnded.withPid _)).bind fun named namedEnded => ?_
  dsimp only
  split
  · split
    · refine namedEnded.command.readStr.bind fun text _ => ?_
      exact (rewriteCommand_completes _ (by decide) namedEnded).bind finished
    · exact (rewriteCommand_completes _ (by decide) namedEnded).bind finished
  · exact (completes_pure namedEnded).bind finished

theorem parseAnomAbend_completes : Completes (parseAnomAbend host sha256 callback msg)
    (AllSealed sha256) := by
  have finished : ∀ ev : AuditEvent, ev.Ended → Completes (do
      let sigBuf := snprintf 64 (ascii " signal=" ++ formatInt (fieldLong msg (ascii "sig")))
      let ev ←
        if (← ev.command.readStr).length + sigBuf.length < commandMax - 1 then do
          pure { ev with command := ← ev.command.strcat sigBuf }
        else pure ev
      let ev ← setUser host msg (ascii "uid") ev
      let ev ← fillAuditEvent host sha256 ev
      return dispatch callback ev) (AllSealed sha256) := by
    intro ev ended
    refine ended.command.readStr.bind fun text same => ?_
    dsimp only
    split
    · rename_i fits
      refine (ended.command.strcat (by rw [← same]; omega)).bind fun command commandEnded => ?_
      have suffixed : AuditEvent.Ended { ev with command } := { ended with command := commandEnded }
      exact (setUser_completes _ _ suffixed).bind fun _ ended => filled_completes callback ended
    · exact (setUser_completes _ _ ended).bind fun _ ended => filled_completes callback ended
  refine (auditEventInit_completes 0 0 (cString_readable _ _) (cString_readable _ _)).bind
    fun initial initialEnded => ?_
  refine (replaceCommand_completes _ (initialEnded.withPid _)).bind fun named namedEnded => ?_
  dsimp only
  split
  · exact finished named namedEnded
  · exact (replaceCommand_completes _ namedEnded).bind finished

end BlockchainAuditor
