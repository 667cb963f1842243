import BlockchainAuditor.AuditMonitor

/-! Which program name `parse_execve`, `parse_anom_abend` and `parse_user_login` record: the
fields that they look for, against what `audit_event_init` has put into the command before. -/

namespace BlockchainAuditor

open CStrings CharArray KeyedText

section Specified

variable (host : Host) (msg : Bytes)

def nonEmpty (name : Bytes) : Bool := !name.isEmpty

def specifiedName : Option Bytes :=
  ((fieldStr host msg (ascii "exe")).filter nonEmpty).or
    ((fieldStr host msg (ascii "comm")).filter nonEmpty)

def signalText : Bytes :=
  snprintf 64 (ascii " signal=" ++ formatInt (fieldLong msg (ascii "sig")))

def withSignal (name : Bytes) : Bytes :=
  if name.length + (signalText msg).length < commandMax - 1 then name ++ signalText msg else name

def loginAddress : Option Bytes :=
  (fieldStr host msg (ascii "addr")).or (fieldStr host msg (ascii "hostname"))

def resultText : Bytes :=
  match fieldStr host msg (ascii "res") with
  | some res => ascii " [" ++ res ++ ascii "]"
  | none => []

def loginText (name address : Bytes) : Bytes :=
  (name ++ ascii " from " ++ address ++ resultText host msg).take (commandMax - 1)

end Specified

def Dispatches (parsed : Option (List AuditEvent)) (post : Bytes → Prop) : Prop :=
  Completes parsed fun events => ∃ ev, events = [ev] ∧ post ev.command.str

variable {host : Host} {sha256 : Bytes → Digest} {msg : Bytes} {ev after : AuditEvent}

structure FieldValue (msg value : Bytes) : Prop where
  nulFree : (0 : UInt8) ∉ value
  length_le : value.length ≤ commandMax - 1
  unquoted : quote ∉ value
  inQuotes : quote ∈ msg

theorem fieldStr_value {key value : Bytes} (nulFree : (0 : UInt8) ∉ msg)
    (found : fieldStr host msg key = some value) : FieldValue msg value := by
  unfold fieldStr at found
  dsimp only at found
  split at found
  · simp at found
  · rename_i place searched
    split at found
    · rename_i closed
      split at found
      · obtain rfl := Option.some.inj found
        have inside : ∀ byte ∈ place.drop (snprintf 128 (key ++ ascii "=\"")).length, byte ∈ msg :=
          fun byte member => (strstr_isPrefix searched).2.subset (List.mem_of_mem_drop member)
        refine ⟨fun member => nulFree (inside 0 (List.mem_of_mem_take member)), ?_, ?_,
          inside quote closed⟩
        · rw [List.length_take]
          omega
        · intro member
          have front := (List.take_prefix_take_left (Nat.min_le_left _ (commandMax - 1))).subset member
          rw [← List.prefix_iff_eq_take.mp (List.takeWhile_prefix _)] at front
          simpa using List.mem_takeWhile_imp front
      · simp at found
    · simp at found

theorem initialCommand (type : Bytes) (nulFree : (0 : UInt8) ∉ msg) :
    Completes (auditEventInit (cString type) (cString msg) 0 0) fun ev =>
      ev.Ended ∧ ev.command.str = msg.take (commandMax - 1) := by
  refine (auditEventInit_completes 0 0 (cString_readable _ _) (cString_readable _ _)).and
    fun ev called => ?_
  obtain ⟨eventType, _, called⟩ := Option.bind_eq_some_iff.mp called
  obtain ⟨command, copied, called⟩ := Option.bind_eq_some_iff.mp called
  obtain ⟨user, _, called⟩ := Option.bind_eq_some_iff.mp called
  obtain ⟨cwd, _, called⟩ := Option.bind_eq_some_iff.mp called
  obtain rfl := Option.some.inj called
  have blank : (CharArray.zero : CharArray commandMax).Ended := zero_ended (by decide)
  exact ((blank.copyString (by decide) nulFree).holds copied).2

theorem replaceCommand_str (ended : ev.Ended) {text : Bytes} (nulFree : (0 : UInt8) ∉ text)
    (fits : text.length ≤ commandMax - 1) :
    Completes (replaceCommand (some text) ev) fun after =>
      after.Ended ∧ after.command.str = text := by
  refine (ended.command.copyString (by decide) nulFree).bind fun command ⟨commandEnded, spelled⟩ =>
    completes_pure ⟨{ ended with command := commandEnded }, ?_⟩
  rw [← List.take_of_length_le fits]
  exact spelled

theorem rewriteCommand_str {bufSize : Nat} (ended : ev.Ended) {text : Bytes}
    (nulFree : (0 : UInt8) ∉ text) (room : commandMax ≤ bufSize) :
    Completes (rewriteCommand host bufSize text ev) fun after =>
      after.Ended ∧ after.command.str = text.take (commandMax - 1) := by
  have copies := ended.command.copyPrinted (by decide) room (host.indeterminate bufSize) nulFree
  obtain ⟨command, copied, commandEnded, spelled⟩ := copies
  obtain ⟨buf, printed, copied⟩ := Option.bind_eq_some_iff.mp copied
  refine ⟨{ ev with command }, ?_, { ended with command := commandEnded }, spelled⟩
  simp only [rewriteCommand, printed, copied, Option.bind_eq_bind, Option.bind_some,
    Option.pure_def]

theorem setUser_command {key : Bytes} (called : setUser host msg key ev = some after) :
    after.command = ev.command := by
  unfold setUser at called
  dsimp only at called
  split at called
  · obtain ⟨user, _, built⟩ := Option.bind_eq_some_iff.mp called
    obtain rfl := Option.some.inj built
    rfl
  · obtain ⟨user, _, built⟩ := Option.bind_eq_some_iff.mp called
    obtain rfl := Option.some.inj built
    rfl

theorem fillAuditEvent_command (called : fillAuditEvent host sha256 ev = some after) :
    after.command = ev.command := by
  obtain ⟨ts, _, called⟩ := Option.bind_eq_some_iff.mp called
  obtain ⟨timestamp, _, called⟩ := Option.bind_eq_some_iff.mp called
  dsimp only at called
  split at called
  · obtain ⟨cwdPath, _, called⟩ := Option.bind_eq_some_iff.mp called
    obtain ⟨cwd, _, called⟩ := Option.bind_eq_some_iff.mp called
    obtain rfl := Option.some.inj called
    rfl
  · obtain rfl := Option.some.inj called
    rfl

theorem filled_command (ended : ev.Ended) :
    Completes (do return dispatch true (← fillAuditEvent host sha256 ev)) fun events =>
      ∃ last, events = [last] ∧ last.command = ev.command := by
  refine ((fillAuditEvent_completes ended).and fun _ called => fillAuditEvent_command called).bind
    fun last ⟨_, same⟩ => completes_pure ⟨last, rfl, same⟩

theorem hasCommand_iff (ended : ev.Ended) : ev.hasCommand = true ↔ ev.command.str ≠ [] := by
  have nonempty : ev.command.cells ≠ [] := List.ne_nil_of_mem ended.command.terminated
  obtain ⟨first, rest, split⟩ := List.exists_cons_of_ne_nil nonempty
  rw [AuditEvent.hasCommand, CharArray.str, split]
  by_cases zero : first = 0
  · simp [zero]
  · simp [zero]

def exeOrMessage (host : Host) (msg : Bytes) : Bytes :=
  (fieldStr host msg (ascii "exe")).getD (msg.take (commandMax - 1))

def recordedName (host : Host) (msg : Bytes) : Bytes :=
  if exeOrMessage host msg = [] then (fieldStr host msg (ascii "comm")).getD []
  else exeOrMessage host msg

theorem replaceExe (nulFree : (0 : UInt8) ∉ msg) (ended : ev.Ended)
    (started : ev.command.str = msg.take (commandMax - 1)) :
    Completes (replaceCommand (fieldStr host msg (ascii "exe")) ev) fun after =>
      after.Ended ∧ after.command.str = exeOrMessage host msg := by
  unfold exeOrMessage
  cases found : fieldStr host msg (ascii "exe") with
  | none => exact completes_some ⟨ended, started⟩
  | some exe =>
      have value := fieldStr_value nulFree found
      exact replaceCommand_str ended value.nulFree value.length_le

theorem replaceComm (nulFree : (0 : UInt8) ∉ msg) (ended : ev.Ended) (empty : ev.command.str = []) :
    Completes (replaceCommand (fieldStr host msg (ascii "comm")) ev) fun after =>
      after.Ended ∧ after.command.str = (fieldStr host msg (ascii "comm")).getD [] := by
  cases found : fieldStr host msg (ascii "comm") with
  | none => exact completes_some ⟨ended, empty⟩
  | some comm =>
      have value := fieldStr_value nulFree found
      exact replaceCommand_str ended value.nulFree value.length_le

theorem named_completes {next : AuditEvent → Option (List AuditEvent)}
    {post : List AuditEvent → Prop} (nulFree : (0 : UInt8) ∉ msg) (type : Bytes)
    (finished : ∀ ev : AuditEvent, ev.Ended → ev.command.str = recordedName host msg →
      Completes (next ev) post) :
    Completes (do
      let ev ← auditEventInit (cString type) (cString msg) 0 0
      let ev := { ev with pid := toPid (fieldLong msg (ascii "pid")) }
      let ev ← replaceCommand (fieldStr host msg (ascii "exe")) ev
      let ev ←
        if ev.hasCommand then pure ev else replaceCommand (fieldStr host msg (ascii "comm")) ev
      next ev) post := by
  refine (initialCommand type nulFree).bind fun initial ⟨initialEnded, started⟩ => ?_
  have replaced : Completes (replaceCommand (fieldStr host msg (ascii "exe"))
      { initial with pid := toPid (fieldLong msg (ascii "pid")) }) fun after =>
        after.Ended ∧ after.command.str = exeOrMessage host msg :=
    replaceExe nulFree (initialEnded.withPid _) started
  refine replaced.bind fun named ⟨namedEnded, spelled⟩ => ?_
  have visible := hasCommand_iff namedEnded
  rw [spelled] at visible
  dsimp only
  split
  · rename_i hasCommand
    apply finished named namedEnded
    rw [recordedName, if_neg (visible.mp hasCommand), spelled]
  · rename_i noCommand
    have empty : exeOrMessage host msg = [] := by
      by_contra nonempty
      exact noCommand (visible.mpr nonempty)
    refine (replaceComm nulFree namedEnded (spelled.trans empty)).bind
      fun again ⟨againEnded, renamed⟩ => finished again againEnded ?_
    rw [recordedName, if_pos empty, renamed]

theorem finished_command (key : Bytes) (ended : ev.Ended) :
    Dispatches (do
      let ev ← setUser host msg key ev
      let ev ← fillAuditEvent host sha256 ev
      return dispatch true ev) fun command => command = ev.command.str := by
  refine ((setUser_completes msg key ended).and fun _ called => setUser_command called).bind
    fun user ⟨userEnded, same⟩ => ?_
  refine (filled_command userEnded).mono fun events ⟨last, only, kept⟩ => ⟨last, only, ?_⟩
  rw [kept, same]

theorem parseExecve_command (nulFree : (0 : UInt8) ∉ msg) :
    Dispatches (parseExecve host sha256 true msg) fun command => command = recordedName host msg := by
  refine named_completes nulFree (ascii "execve") fun ev ended (spelled : _ =
    recordedName host msg) => ?_
  rw [← spelled]
  exact finished_command (ascii "uid") ended

theorem signalText_nulFree : (0 : UInt8) ∉ signalText msg := by
  intro member
  rcases List.mem_append.mp (List.mem_of_mem_take member) with label | number
  · exact absurd label (by decide)
  · exact formatInt_excludes 0 (by decide) (by decide) _ number

theorem parseAnomAbend_command (nulFree : (0 : UInt8) ∉ msg) :
    Dispatches (parseAnomAbend host sha256 true msg) fun command =>
      command = withSignal msg (recordedName host msg) := by
  refine named_completes nulFree (ascii "process_crash") fun ev ended (spelled : _ =
    recordedName host msg) => ?_
  refine ended.command.readStr.bind fun text same => ?_
  rw [same, ← spelled]
  dsimp only
  split
  · rename_i short
    have fits : ev.command.str.length + (signalText msg).length < commandMax - 1 := short
    have joins := ended.command.strcat_str signalText_nulFree (Nat.lt_of_lt_of_le fits (by simp))
    refine joins.bind fun command ⟨commandEnded, joined⟩ => ?_
    rw [withSignal, if_pos fits, ← joined]
    exact finished_command (ascii "uid")
      (show AuditEvent.Ended { ev with command } from { ended with command := commandEnded })
  · rename_i long
    have full : ¬ev.command.str.length + (signalText msg).length < commandMax - 1 := long
    rw [withSignal, if_neg full]
    exact finished_command (ascii "uid") ended

def recordedLogin (host : Host) (msg : Bytes) : Bytes :=
  if exeOrMessage host msg = [] then ascii "(unknown)" else exeOrMessage host msg

theorem resultStep {text : Bytes} (nulFree : (0 : UInt8) ∉ msg) (ended : ev.Ended)
    (spelled : ev.command.str = text.take (commandMax - 1)) :
    Dispatches (do
      let ev ← setUser host msg (ascii "uid") ev
      let ev ←
        match fieldStr host msg (ascii "res") with
        | some res => do
          let text := (← ev.command.readStr) ++ ascii " [" ++ res ++ ascii "]"
          rewriteCommand host (commandMax + 64) text ev
        | none => pure ev
      let ev ← fillAuditEvent host sha256 ev
      return dispatch true ev) fun command =>
        command = (text ++ resultText host msg).take (commandMax - 1) := by
  refine ((setUser_completes msg (ascii "uid") ended).and fun _ called =>
    setUser_command called).bind fun user ⟨userEnded, same⟩ => ?_
  have kept : user.command.str = text.take (commandMax - 1) := by rw [same, spelled]
  unfold resultText
  cases found : fieldStr host msg (ascii "res") with
  | none =>
      have unmarked : Completes (pure user : Option AuditEvent) fun ev => ev = user :=
        completes_pure rfl
      refine unmarked.bind fun plain isUser => ?_
      rw [isUser, List.append_nil, ← kept]
      exact (filled_command userEnded).mono fun events ⟨last, only, unchanged⟩ =>
        ⟨last, only, congrArg CharArray.str unchanged⟩
  | some res =>
      dsimp only
      refine userEnded.command.readStr.bind fun command read => ?_
      have plain : (0 : UInt8) ∉ user.command.str ++ ascii " [" ++ res ++ ascii "]" := by
        simp only [List.mem_append, not_or]
        exact ⟨⟨⟨CharArray.str_nulFree _, by decide⟩, (fieldStr_value nulFree found).nulFree⟩,
          by decide⟩
      rw [read]
      refine (rewriteCommand_str userEnded plain (by decide)).bind
        fun marked ⟨markedEnded, written⟩ => ?_
      refine (filled_command markedEnded).mono fun events ⟨last, only, unchanged⟩ =>
        ⟨last, only, ?_⟩
      rw [unchanged, written, kept, List.append_assoc, List.append_assoc, cut_append]
      simp only [List.append_assoc]

theorem parseUserLogin_command (nulFree : (0 : UInt8) ∉ msg) {address : Bytes}
    (found : loginAddress host msg = some address) :
    Dispatches (parseUserLogin host sha256 true msg) fun command =>
      command = loginText host msg (recordedLogin host msg) address := by
  have addressFree : (0 : UInt8) ∉ address := by
    rcases Option.or_eq_some_iff.mp found with addr | ⟨_, hostname⟩
    · exact (fieldStr_value nulFree addr).nulFree
    · exact (fieldStr_value nulFree hostname).nulFree
  have written : ∀ (ev : AuditEvent) (name : Bytes), ev.Ended → (0 : UInt8) ∉ name →
      Completes (rewriteCommand host (commandMax + 128) (name ++ ascii " from " ++ address) ev)
        fun after => after.Ended ∧
          after.command.str = (name ++ ascii " from " ++ address).take (commandMax - 1) := by
    intro ev name ended nameFree
    apply rewriteCommand_str ended _ (by decide)
    simp only [List.mem_append, not_or]
    exact ⟨⟨nameFree, by decide⟩, addressFree⟩
  refine (initialCommand (ascii "user_login") nulFree).bind
    fun initial ⟨initialEnded, started⟩ => ?_
  have replaced : Completes (replaceCommand (fieldStr host msg (ascii "exe"))
      { initial with pid := toPid (fieldLong msg (ascii "pid")) }) fun after =>
        after.Ended ∧ after.command.str = exeOrMessage host msg :=
    replaceExe nulFree (initialEnded.withPid _) started
  refine replaced.bind fun named ⟨namedEnded, spelled⟩ => ?_
  have visible := hasCommand_iff namedEnded
  rw [spelled] at visible
  have matched : (fieldStr host msg (ascii "addr")).or (fieldStr host msg (ascii "hostname")) =
    some address := found
  rw [matched]
  dsimp only
  split
  · rename_i hasCommand
    refine namedEnded.command.readStr.bind fun name read => ?_
    have same : name = recordedLogin host msg := by
      rw [recordedLogin, if_neg (visible.mp hasCommand), read, spelled]
    refine (written named name namedEnded (by rw [read]; exact named.command.str_nulFree)).bind
      fun placed ⟨placedEnded, placedSpelled⟩ => ?_
    rw [← same]
    exact resultStep nulFree placedEnded placedSpelled
  · rename_i noCommand
    have empty : exeOrMessage host msg = [] := by
      by_contra nonempty
      exact noCommand (visible.mpr nonempty)
    rw [recordedLogin, if_pos empty]
    have placeholder : Completes (pure (ascii "(unknown)")) fun name => name = ascii "(unknown)" :=
      completes_pure rfl
    refine placeholder.bind fun name same => ?_
    rw [same]
    exact (written named _ namedEnded (by decide)).bind fun placed ⟨placedEnded, placedSpelled⟩ =>
      resultStep nulFree placedEnded placedSpelled

/-! The recorded name is the specified one unless there is no `exe` field: then the command is
the message itself, and neither `comm` nor the placeholder is looked at. -/

theorem dispatches_iff {expected : Bytes} {specified : Bytes → Prop}
    {parsed : Option (List AuditEvent)}
    (dispatches : Dispatches parsed fun command => command = expected) :
    Dispatches parsed specified ↔ specified expected := by
  obtain ⟨events, ran, ev, only, same⟩ := dispatches
  constructor
  · rintro ⟨others, alsoRan, other, alsoOnly, holds⟩
    rw [ran] at alsoRan
    obtain rfl := Option.some.inj alsoRan
    rw [only] at alsoOnly
    obtain rfl := (List.cons.inj alsoOnly).1
    rwa [← same]
  · intro holds
    exact ⟨events, ran, ev, only, by rwa [same]⟩

/-- Without an `exe` field the message itself, cut like a command, would have to read like
the name in `comm`. -/
def MessageReadsAsComm (host : Host) (msg : Bytes) : Prop :=
  fieldStr host msg (ascii "exe") = none →
    ∀ name ∈ (fieldStr host msg (ascii "comm")).filter nonEmpty, msg.take (commandMax - 1) = name

theorem nonEmpty_iff {name : Bytes} : nonEmpty name = true ↔ name ≠ [] := by
  cases name <;> simp [nonEmpty]

theorem recordedName_cases (nonempty : msg ≠ []) :
    (fieldStr host msg (ascii "exe") ≠ none ∧
      ∀ name ∈ specifiedName host msg, recordedName host msg = name) ∨
    (fieldStr host msg (ascii "exe") = none ∧
      recordedName host msg = msg.take (commandMax - 1) ∧
      specifiedName host msg = (fieldStr host msg (ascii "comm")).filter nonEmpty) := by
  unfold specifiedName recordedName exeOrMessage
  cases exe : fieldStr host msg (ascii "exe") with
  | none =>
      have cut : msg.take (commandMax - 1) ≠ [] := by simp [nonempty, commandMax]
      exact Or.inr ⟨rfl, by simp [cut], by simp⟩
  | some name =>
      refine Or.inl ⟨by simp, ?_⟩
      by_cases empty : name = []
      · cases comm : fieldStr host msg (ascii "comm") with
        | none => simp [empty, nonEmpty]
        | some other => simp [empty, Option.filter, nonEmpty]
      · have kept : nonEmpty name = true := nonEmpty_iff.mpr empty
        simp [empty, Option.filter, kept]

theorem recordedName_iff (nonempty : msg ≠ []) :
    (∀ name ∈ specifiedName host msg, recordedName host msg = name) ↔
      MessageReadsAsComm host msg := by
  rcases recordedName_cases nonempty with ⟨found, named⟩ | ⟨missing, recorded, comm⟩
  · exact ⟨fun _ missing => absurd missing found, fun _ => named⟩
  · rw [recorded, comm]
    exact ⟨fun reads _ => reads, fun reads => reads missing⟩

theorem withSignal_comm {name : Bytes} (value : FieldValue msg name) :
    withSignal msg (msg.take (commandMax - 1)) = withSignal msg name ↔
      msg.take (commandMax - 1) = name := by
  have unquoted : quote ∉ signalText msg := by
    intro member
    rcases List.mem_append.mp (List.mem_of_mem_take member) with label | number
    · exact absurd label (by decide)
    · exact formatInt_excludes quote (by decide) (by decide) _ number
  constructor
  · intro same
    unfold withSignal at same
    -- a message that is not cut still has the quotes around the name
    have whole : (msg.take (commandMax - 1)).length < commandMax - 1 →
        quote ∈ msg.take (commandMax - 1) := by
      intro short
      rw [List.length_take] at short
      rw [List.take_of_length_le (by omega)]
      exact value.inQuotes
    split at same <;> split at same
    · exact List.append_cancel_right same
    · rename_i short _
      have inside : quote ∈ name := by
        rw [← same]
        exact List.mem_append_left _ (whole (by omega))
      exact absurd inside value.unquoted
    · rename_i _ short
      have inside : quote ∈ name ++ signalText msg := by
        rw [← same]
        apply whole
        rw [same, List.length_append]
        exact short
      rcases List.mem_append.mp inside with member | member
      · exact absurd member value.unquoted
      · exact absurd member unquoted
    · exact same
  · intro same
    rw [same]

theorem recordedSignal_iff (nulFree : (0 : UInt8) ∉ msg) (nonempty : msg ≠ []) :
    (∀ name ∈ specifiedName host msg,
        withSignal msg (recordedName host msg) = withSignal msg name) ↔
      MessageReadsAsComm host msg := by
  rcases recordedName_cases nonempty with ⟨found, named⟩ | ⟨missing, recorded, comm⟩
  · refine ⟨fun _ missing => absurd missing found, fun _ name specified => ?_⟩
    rw [named name specified]
  · rw [recorded, comm]
    have same : ∀ name ∈ (fieldStr host msg (ascii "comm")).filter nonEmpty,
        withSignal msg (msg.take (commandMax - 1)) = withSignal msg name ↔
          msg.take (commandMax - 1) = name := by
      intro name specified
      exact withSignal_comm (fieldStr_value nulFree (Option.filter_eq_some_iff.mp specified).1)
    constructor
    · exact fun reads _ name specified => (same name specified).mp (reads name specified)
    · exact fun reads name specified => (same name specified).mpr (reads missing name specified)

/-- With an address and no name in `exe` the message itself would have to read like the
placeholder. -/
def MessageReadsAsUnknown (host : Host) (msg : Bytes) : Prop :=
  fieldStr host msg (ascii "exe") = none → ∀ address ∈ loginAddress host msg,
    loginText host msg msg address = loginText host msg (ascii "(unknown)") address

theorem recordedLogin_iff (nonempty : msg ≠ []) {address : Bytes}
    (noName : (fieldStr host msg (ascii "exe")).filter nonEmpty = none) :
    loginText host msg (recordedLogin host msg) address =
        loginText host msg (ascii "(unknown)") address ↔
      (fieldStr host msg (ascii "exe") = none →
        loginText host msg msg address = loginText host msg (ascii "(unknown)") address) := by
  unfold recordedLogin exeOrMessage
  cases exe : fieldStr host msg (ascii "exe") with
  | none =>
      have cut : msg.take (commandMax - 1) ≠ [] := by simp [nonempty, commandMax]
      have uncut : loginText host msg (msg.take (commandMax - 1)) address =
          loginText host msg msg address := by
        unfold loginText
        rw [List.append_assoc, List.append_assoc, cut_append]
        simp only [List.append_assoc]
      simp [cut, uncut]
  | some name =>
      have empty : name = [] := by
        by_contra visible
        rw [exe, Option.filter_some, if_pos (nonEmpty_iff.mpr visible)] at noName
        simp at noName
      simp [empty]

section Named

variable (host : Host) (sha256 : Bytes → Digest) (msg : Bytes)

def ExecveNamed : Prop :=
  Dispatches (parseExecve host sha256 true msg) fun command =>
    ∀ name ∈ specifiedName host msg, command = name

def AnomAbendNamed : Prop :=
  Dispatches (parseAnomAbend host sha256 true msg) fun command =>
    ∀ name ∈ specifiedName host msg, command = withSignal msg name

def UserLoginNamed : Prop :=
  (fieldStr host msg (ascii "exe")).filter nonEmpty = none → ∀ address ∈ loginAddress host msg,
    Dispatches (parseUserLogin host sha256 true msg) fun command =>
      command = loginText host msg (ascii "(unknown)") address

end Named

theorem programNames_iff (host : Host) (sha256 : Bytes → Digest) (nulFree : (0 : UInt8) ∉ msg)
    (nonempty : msg ≠ []) :
    (ExecveNamed host sha256 msg ↔ MessageReadsAsComm host msg) ∧
      (AnomAbendNamed host sha256 msg ↔ MessageReadsAsComm host msg) ∧
      (UserLoginNamed host sha256 msg ↔ MessageReadsAsUnknown host msg) := by
  refine ⟨?_, ?_, ?_⟩
  · rw [ExecveNamed, dispatches_iff (parseExecve_command nulFree)]
    exact recordedName_iff nonempty
  · rw [AnomAbendNamed, dispatches_iff (parseAnomAbend_command nulFree)]
    exact recordedSignal_iff nulFree nonempty
  · have recorded : ∀ address ∈ loginAddress host msg,
        (Dispatches (parseUserLogin host sha256 true msg) fun command =>
          command = loginText host msg (ascii "(unknown)") address) ↔
        loginText host msg (recordedLogin host msg) address =
          loginText host msg (ascii "(unknown)") address :=
      fun address found => dispatches_iff (parseUserLogin_command nulFree found)
    constructor
    · intro named missing address found
      have noName : (fieldStr host msg (ascii "exe")).filter nonEmpty = none := by rw [missing]; rfl
      exact (recordedLogin_iff nonempty noName).mp
        ((recorded address found).mp (named noName address found)) missing
    · intro reads noName address found
      exact (recorded address found).mpr
        ((recordedLogin_iff nonempty noName).mpr fun missing => reads missing address found)

theorem catMessage_named : ExecveNamed noonHost zeroDigest (writeMessage "917") ∧
    AnomAbendNamed noonHost zeroDigest (writeMessage "917") ∧
    UserLoginNamed noonHost zeroDigest (writeMessage "917") := by
  have named := programNames_iff noonHost zeroDigest
    (by decide +kernel : (0 : UInt8) ∉ writeMessage "917") (by decide +kernel)
  have found : fieldStr noonHost (writeMessage "917") (ascii "exe") ≠ none := by decide +kernel
  exact ⟨named.1.mpr fun missing => absurd missing found,
    named.2.1.mpr fun missing => absurd missing found,
    named.2.2.mpr fun missing => absurd missing found⟩

def commMessage : Bytes := ascii "audit(1704106800.042:917): ppid=1 pid=42 uid=0 comm=\"cat\""

theorem commMessage_unnamed : ¬ExecveNamed noonHost zeroDigest commMessage := by
  rw [ExecveNamed, dispatches_iff (parseExecve_command (by decide +kernel))]
  intro named
  exact absurd (named (ascii "cat") (by decide +kernel)) (by decide +kernel)

end BlockchainAuditor
