import BlockchainAuditor.CommandArguments
import BlockchainAuditor.LogCache
import BlockchainAuditor.Library.Inodes

/-! The local log among any number of threads and processes, interleaved call by call, as a list of
lines: appends, `integrity-test` with its readings and its rewriting, and `clear`. -/

namespace BlockchainAuditor

open CStrings CharArray KeyedText LineReader Transitions Inodes

/-- `permitted` tells whether `unlink` succeeds. -/
def localLogClear {α : Type} (permitted : Bool) (disk : Disk α) : Disk α :=
  if permitted then disk.unlink else disk

/-- Where a thread is that has not finished: with a file open to append a text, in an
`integrity-test` before the reading of `local_log_simulate_tamper` or with what it read, or with a file
open to write a text. -/
inductive LogPlace (α : Type)
  | appending (inode : Nat) (text : List α)
  | counted (line : Int) (newValue : Bytes)
  | read (line : Int) (newValue : Bytes) (log : Option (List α))
  | rewriting (inode : Nat) (text : List α)

structure LogSite (α : Type) where
  disk : Disk α
  threads : Nat → Option (LogPlace α)

def LogSite.empty {α : Type} : LogSite α := ⟨.empty, fun _ => none⟩

def LogSite.goes {α : Type} (site : LogSite α) (thread : Nat) (place : Option (LogPlace α)) :
    LogSite α :=
  { site with threads := Function.update site.threads thread place }

/-- `opened` tells whether `fopen(log_path, "a")` succeeds, and `permitted` the same of the calls that
change the file in another way. -/
inductive LogAction
  | appends (thread : Nat) (opened : Bool) (ev : AuditEvent)
  | invokes (thread : Nat) (check : GatewayCheck) (permitted : Bool) (argv : List Bytes)
  | reads (thread : Nat)
  | opens (thread : Nat) (permitted : Bool) (newLine : CharArray lineBufferSize)
  | writes (thread : Nat)

/-- Behind `fopen(log_path, "w")`, or behind what `local_log_simulate_tamper` returns before it. -/
def LogSite.opened {α : Type} (site : LogSite α) (thread : Nat) : Option (List α) → LogSite α
  | none => site.goes thread none
  | some text =>
    let (disk, inode) := site.disk.openWrite
    { site with disk }.goes thread (some (.rewriting inode text))

/-- How events stand in a file, how many lines of it are read, the text that is written in its place
(if it is opened), and what is there when that is written. -/
structure LogFormat (α : Type) where
  record : AuditEvent → List α
  count : Option (List α) → Nat
  tamper : Bool → CharArray lineBufferSize → Option (List α) → Int → Bytes →
    Option (Option (List α))
  print : List α → List α → List α

def byteLog : LogFormat UInt8 where
  record ev := auditEventToJson ev jsonEventMax ++ [newline]
  count log := (localLogReadAll log).length
  tamper permitted newLine log line newValue := do
    let (rc, after) ← localLogSimulateTamper permitted newLine log line newValue
    return if rc = 0 then after else none
  print text contents := text ++ contents.drop text.length

def replaceLine (lines : List Bytes) (line : Int) (newValue : Bytes) : Option (List Bytes) :=
  (tamperedLine lines line newValue).map (lines.set line.toNat ·)

def lineLog : LogFormat Bytes where
  record ev := [auditEventToJson ev jsonEventMax]
  count log := (log.getD []).length
  tamper permitted _ log line newValue :=
    some (if permitted then replaceLine (log.getD []) line newValue else none)
  print lines contents := lines ++ linesBehind (fileText lines).length contents

section Steps

variable {α : Type} (format : LogFormat α) (overflow : Overflow)

/-- An invocation, up to the first reading of an `integrity-test`; this ends there when no line is to be
changed, or before it when a request crashes. The events of `run`, `stress` and `daemon` are appended
one by one. -/
def LogSite.invoke (site : LogSite α) (thread : Nat) (check : GatewayCheck) (permitted : Bool)
    (argv : List Bytes) : Option (LogSite α) :=
  match mainDispatch argv with
  | .integrityTest argv => do
    let (line, newValue) ← integrityTestArgs overflow argv
    if check.run = some () ∧ 0 ≤ line ∧ line < format.count site.disk.contents then
      return site.goes thread (some (.counted line newValue))
    else return site
  | .clear => some { site with disk := localLogClear permitted site.disk }
  | _ => some site

def LogAction.apply (site : LogSite α) : LogAction → Option (LogSite α)
  | .appends thread opened ev =>
    if (site.threads thread).isSome then none
    else if opened then
      let (disk, inode) := site.disk.openAppend
      some ({ site with disk }.goes thread (some (.appending inode (format.record ev))))
    else some site
  | .invokes thread check permitted argv =>
    if (site.threads thread).isSome then none
    else site.invoke format overflow thread check permitted argv
  | .reads thread =>
    match site.threads thread with
    | some (.counted line newValue) =>
      some (site.goes thread (some (.read line newValue site.disk.contents)))
    | _ => none
  | .opens thread permitted newLine =>
    match site.threads thread with
    | some (.read line newValue log) => do
      return site.opened thread (← format.tamper permitted newLine log line newValue)
    | _ => none
  -- what `fclose` hands on
  | .writes thread =>
    match site.threads thread with
    | some (.appending inode text) =>
      some ({ site with disk := site.disk.append inode text }.goes thread none)
    | some (.rewriting inode text) =>
      let contents := format.print text (site.disk.files inode)
      some ({ site with disk := site.disk.put inode contents }.goes thread none)
    | _ => none

def logStore : System (LogSite α) LogAction where
  start site := site = .empty
  step site action next := action.apply format overflow site = some next

end Steps

section Equations

variable {α : Type} {format : LogFormat α} {overflow : Overflow} {site : LogSite α} {thread : Nat}

@[simp] theorem goes_thread (site : LogSite α) (thread : Nat) (place : Option (LogPlace α)) :
    (site.goes thread place).threads thread = place := Function.update_self ..

@[simp] theorem goes_disk (site : LogSite α) (thread : Nat) (place : Option (LogPlace α)) :
    (site.goes thread place).disk = site.disk := rfl

theorem apply_invokes (idle : site.threads thread = none) (check : GatewayCheck) (permitted : Bool)
    (argv : List Bytes) : LogAction.apply format overflow site (.invokes thread check permitted argv) =
      site.invoke format overflow thread check permitted argv := by
  simp [LogAction.apply, idle]

variable {line : Int} {newValue : Bytes} {log : Option (List α)}

theorem apply_reads (here : site.threads thread = some (.counted line newValue)) :
    LogAction.apply format overflow site (.reads thread) =
      some (site.goes thread (some (.read line newValue site.disk.contents))) := by
  simp only [LogAction.apply, here]

theorem apply_opens (here : site.threads thread = some (.read line newValue log)) {permitted : Bool}
    {newLine : CharArray lineBufferSize} {written : Option (List α)}
    (tampers : format.tamper permitted newLine log line newValue = some written) :
    LogAction.apply format overflow site (.opens thread permitted newLine) =
      some (site.opened thread written) := by
  simp [LogAction.apply, here, tampers]

variable {inode : Nat} {text : List α}

theorem apply_rewritten (here : site.threads thread = some (.rewriting inode text)) :
    LogAction.apply format overflow site (.writes thread) =
      some ({ site with
        disk := site.disk.put inode (format.print text (site.disk.files inode)) }.goes thread none) := by
  simp only [LogAction.apply, here]

end Equations

section Alone

variable {sha256 : Bytes → Digest} {overflow : Overflow} {site : LogSite UInt8} {thread : Nat}

variable {permitted : Bool} {newLine : CharArray lineBufferSize} {line : Int} {newValue : Bytes}
  {log after : Option Bytes}

def tamperedText (permitted : Bool) (log : Option Bytes) (line : Int) (newValue : Bytes) :
    Option Bytes :=
  if permitted then (tamperedLine (localLogReadAll log) line newValue).map fun full =>
    fileText ((localLogReadAll log).set line.toNat (full.take (lineBufferSize - 1)))
  else none

theorem localLogSimulateTamper_text (valueFree : (0 : UInt8) ∉ newValue) :
    localLogSimulateTamper permitted newLine log line newValue =
      some (match tamperedText permitted log line newValue with
        | none => (-1, log)
        | some text => (0, some text)) := by
  rw [localLogSimulateTamper_eq valueFree, tamperedText]
  cases tamperedLine (localLogReadAll log) line newValue <;> cases permitted <;> rfl

theorem byteLog_tamper (valueFree : (0 : UInt8) ∉ newValue) :
    byteLog.tamper permitted newLine log line newValue =
      some (tamperedText permitted log line newValue) := by
  change (localLogSimulateTamper permitted newLine log line newValue).bind _ = _
  rw [localLogSimulateTamper_text valueFree, Option.bind_some]
  cases tamperedText permitted log line newValue <;> rfl

theorem rewriting_forgets (valueFree : (0 : UInt8) ∉ newValue) {text : Bytes}
    (here : site.threads thread = some (.read line newValue log))
    (tampered : tamperedText permitted log line newValue = some text) :
    ∃ middle next, (logStore byteLog overflow).step site (.opens thread permitted newLine) middle ∧
      (logStore byteLog overflow).step middle (.writes thread) next ∧
      next.disk.contents = some text := by
  obtain ⟨named, empty⟩ := site.disk.openWrite_contents
  have printed : byteLog.print text (site.disk.openWrite.1.files site.disk.openWrite.2) = text := by
    simp [byteLog, empty]
  have opens : (logStore byteLog overflow).step site (.opens thread permitted newLine) _ :=
    apply_opens here (byteLog_tamper valueFree)
  rw [tampered] at opens
  exact ⟨_, _, opens, apply_rewritten (goes_thread ..),
    (Disk.put_contents named _).trans (congrArg some printed)⟩

theorem tamper_alone (valueFree : (0 : UInt8) ∉ newValue)
    (here : site.threads thread = some (.counted line newValue)) :
    ∃ actions next, Path (logStore byteLog overflow) site actions next ∧
      next.disk.contents = (tamperedText permitted site.disk.contents line newValue).or
        site.disk.contents := by
  have reads : (logStore byteLog overflow).step site (.reads thread) _ := apply_reads here
  have atLog := goes_thread site thread (some (.read line newValue site.disk.contents))
  cases tampered : tamperedText permitted site.disk.contents line newValue with
  | none =>
      have opens : (logStore byteLog overflow).step _ (.opens thread permitted .zero) _ :=
        apply_opens atLog (byteLog_tamper valueFree)
      rw [tampered] at opens
      exact ⟨_, _, .step reads (.single opens), rfl⟩
  | some text =>
      obtain ⟨middle, next, opens, writes, changed⟩ : ∃ middle next,
          (logStore byteLog overflow).step _ (.opens thread permitted .zero) middle ∧ _ :=
        rewriting_forgets valueFree atLog tampered
      exact ⟨_, next, .step reads (.step opens (.single writes)), changed⟩

theorem test_alone {check : GatewayCheck} {storedHash : Nat → CharArray hashHexSize}
    {argv arguments : List Bytes} {result : Int × IntegrityReport × Option Bytes}
    (idle : site.threads thread = none) (dispatched : mainDispatch argv = .integrityTest arguments)
    (valueFree : ∀ args ∈ integrityTestArgs overflow arguments, (0 : UInt8) ∉ args.2)
    (tested : cmdIntegrityTest sha256 overflow check storedHash permitted newLine arguments
      site.disk.contents = some result) :
    ∃ actions next, Path (logStore byteLog overflow) site
        (.invokes thread check permitted argv :: actions) next ∧
      next.disk.contents = result.2.2 := by
  obtain ⟨_, asked, tested⟩ := Option.bind_eq_some_iff.mp tested
  rw [tamperAndTest_args] at tested
  obtain ⟨⟨line, newValue⟩, parsed, tested⟩ := Option.bind_eq_some_iff.mp tested
  obtain ⟨after, changes, tested⟩ := Option.bind_eq_some_iff.mp tested
  obtain ⟨report, -, returned⟩ := Option.bind_eq_some_iff.mp tested
  obtain rfl := Option.some.inj returned
  have invokes : LogAction.apply byteLog overflow site (.invokes thread check permitted argv) = _ :=
    apply_invokes idle check permitted argv
  rw [LogSite.invoke, dispatched] at invokes
  simp only [parsed, Option.bind_eq_bind, Option.bind_some, asked, true_and] at invokes
  rw [changedLog] at changes
  by_cases chosen : 0 ≤ line ∧ line < (localLogReadAll site.disk.contents).length
  · rw [if_pos chosen, localLogSimulateTamper_text (valueFree _ parsed), Option.map_some] at changes
    obtain rfl := Option.some.inj changes
    obtain ⟨actions, next, path, changed⟩ : ∃ actions next,
        Path (logStore byteLog overflow) _ actions next ∧ next.disk.contents =
          (tamperedText permitted _ _ _).or _ :=
      tamper_alone (valueFree _ parsed) (goes_thread site thread _)
    refine ⟨actions, next, .step (invokes.trans (if_pos chosen)) path, changed.trans ?_⟩
    rw [goes_disk]
    cases tamperedText permitted site.disk.contents line newValue <;> rfl
  · rw [if_neg chosen] at changes
    obtain rfl := Option.some.inj changes
    exact ⟨[], site, .single (invokes.trans (if_neg chosen)), rfl⟩

end Alone

/-! Call by call the files hold the lines of the same machine on lines. -/

structure TextHolds (text : Bytes) (lines : List Bytes) : Prop where
  spelled : text = fileText lines
  plain : ∀ line ∈ lines, Plain line

inductive PlaceHolds : Option (LogPlace UInt8) → Option (LogPlace Bytes) → Prop
  | idle : PlaceHolds none none
  | appending {inode text lines} : TextHolds text lines →
      PlaceHolds (some (.appending inode text)) (some (.appending inode lines))
  | counted {line newValue} : Plain newValue →
      PlaceHolds (some (.counted line newValue)) (some (.counted line newValue))
  | read {line newValue log lines} : Plain newValue → localLogReadAll log = lines.getD [] →
      PlaceHolds (some (.read line newValue log)) (some (.read line newValue lines))
  | rewriting {inode text lines} : TextHolds text lines →
      PlaceHolds (some (.rewriting inode text)) (some (.rewriting inode lines))

structure HoldsLines (site : LogSite UInt8) (lines : LogSite Bytes) : Prop where
  disk : Disk.Related TextHolds site.disk lines.disk
  threads : ∀ thread, PlaceHolds (site.threads thread) (lines.threads thread)

def ReadWhole (log : Option Bytes) : Prop := fileText (localLogReadAll log) = log.getD []

/-- Events and new commands have no newlines in them, a test that changes a line reads the log whole, and
the changed line fits the buffer. -/
def KeepsLines (overflow : Overflow) (site : LogSite UInt8) : LogAction → Prop
  | .appends _ _ ev => ev.Terminated ∧ OneLine ev
  | .invokes _ _ _ argv => ∀ arguments, mainDispatch argv = .integrityTest arguments →
    ∀ args ∈ integrityTestArgs overflow arguments,
      Plain args.2 ∧ (0 ≤ args.1 → ReadWhole site.disk.contents)
  | .reads _ => ReadWhole site.disk.contents
  | .opens thread _ _ => ∀ line newValue log full,
    site.threads thread = some (.read line newValue log) →
    tamperedLine (localLogReadAll log) line newValue = some full → full.length < lineBufferSize
  | .writes _ => True

section Lines

variable {overflow : Overflow} {site next : LogSite UInt8} {lines : LogSite Bytes} {thread : Nat}
  {text : Bytes} {texts others : List Bytes} {log : Option Bytes}

theorem textHolds_empty : TextHolds [] [] := ⟨rfl, by simp⟩

theorem TextHolds.append {more : Bytes} (holds : TextHolds text texts) (behind : TextHolds more others) :
    TextHolds (text ++ more) (texts ++ others) where
  spelled := by rw [holds.spelled, behind.spelled, fileText_append]
  plain line member := (List.mem_append.mp member).elim (holds.plain line) (behind.plain line)

theorem TextHolds.behind (holds : TextHolds text texts) (n : Nat) :
    TextHolds (text.drop n) (linesBehind n texts) where
  spelled := by rw [holds.spelled, fileText_linesBehind]
  plain := linesBehind_plain holds.plain

theorem TextHolds.print {contents : Bytes} (printed : TextHolds text texts)
    (holds : TextHolds contents others) :
    TextHolds (byteLog.print text contents) (lineLog.print texts others) := by
  change TextHolds (text ++ contents.drop text.length)
    (texts ++ linesBehind (fileText texts).length others)
  rw [← printed.spelled]
  exact printed.append (holds.behind text.length)

theorem TextHolds.read (holds : TextHolds (log.getD []) texts) (whole : ReadWhole log) :
    localLogReadAll log = texts := by
  have same := whole.trans holds.spelled
  exact fileText_injective (fun line member => (localLogReadAll_plain log line member).1.newlineFree)
    (fun line member => (holds.plain line member).newlineFree) same

theorem HoldsLines.goes (holds : HoldsLines site lines) {place : Option (LogPlace UInt8)}
    {image : Option (LogPlace Bytes)} (new : PlaceHolds place image) :
    HoldsLines (site.goes thread place) (lines.goes thread image) where
  disk := holds.disk
  threads other := by
    by_cases own : other = thread
    · rw [own, goes_thread, goes_thread]
      exact new
    · simp only [LogSite.goes, Function.update_of_ne own]
      exact holds.threads other

theorem HoldsLines.on (holds : HoldsLines site lines) {disk : Disk UInt8} {image : Disk Bytes}
    (related : Disk.Related TextHolds disk image) :
    HoldsLines { site with disk } { lines with disk := image } :=
  ⟨related, holds.threads⟩

theorem HoldsLines.idle (holds : HoldsLines site lines) (idle : site.threads thread = none) :
    lines.threads thread = none := by
  have place := holds.threads thread
  generalize lines.threads thread = image at place ⊢
  rw [idle] at place
  cases place
  rfl

theorem HoldsLines.opened (holds : HoldsLines site lines) {written : Option Bytes}
    {image : Option (List Bytes)} (same : Option.Rel TextHolds written image) :
    HoldsLines (site.opened thread written) (lines.opened thread image) := by
  cases same with
  | none => exact holds.goes .idle
  | some text =>
      obtain ⟨related, inode⟩ := holds.disk.openWrite textHolds_empty
      rw [LogSite.opened, LogSite.opened]
      exact (holds.on related).goes (inode ▸ .rewriting text)

theorem HoldsLines.invoke (holds : HoldsLines site lines) {check : GatewayCheck} {permitted : Bool}
    {argv : List Bytes} (kept : KeepsLines overflow site (.invokes thread check permitted argv))
    (ran : site.invoke byteLog overflow thread check permitted argv = some next) :
    ∃ target, lines.invoke lineLog overflow thread check permitted argv = some target ∧
      HoldsLines next target := by
  have same := holds.disk.contents textHolds_empty
  rw [LogSite.invoke] at ran ⊢
  cases dispatched : mainDispatch argv with
  | integrityTest arguments =>
      rw [dispatched] at ran
      obtain ⟨⟨line, newValue⟩, parsed, ran⟩ := Option.bind_eq_some_iff.mp ran
      obtain ⟨plain, whole⟩ := kept arguments dispatched _ parsed
      simp only [parsed, Option.bind_eq_bind, Option.bind_some]
      have agree : (check.run = some () ∧ 0 ≤ line ∧ line < byteLog.count site.disk.contents) ↔
          check.run = some () ∧ 0 ≤ line ∧ line < lineLog.count lines.disk.contents := by
        refine and_congr_right fun _ => and_congr_right fun nonnegative => ?_
        have read : byteLog.count site.disk.contents = lineLog.count lines.disk.contents :=
          congrArg List.length (same.read (whole nonnegative))
        rw [read]
      by_cases chosen : check.run = some () ∧ 0 ≤ line ∧ line < byteLog.count site.disk.contents
      · obtain rfl := Option.some.inj ((if_pos chosen).symm.trans ran)
        rw [if_pos (agree.mp chosen)]
        exact ⟨_, rfl, holds.goes (.counted plain)⟩
      · obtain rfl := Option.some.inj ((if_neg chosen).symm.trans ran)
        rw [if_neg (fun other => chosen (agree.mpr other))]
        exact ⟨_, rfl, holds⟩
  | clear =>
      rw [dispatched] at ran
      obtain rfl := Option.some.inj ran
      refine ⟨_, rfl, holds.on ?_⟩
      cases permitted with
      | false => exact holds.disk
      | true => exact holds.disk.unlink
  | _ =>
      rw [dispatched] at ran
      obtain rfl := Option.some.inj ran
      exact ⟨lines, rfl, holds⟩

end Lines

variable {site : LogSite UInt8}

end BlockchainAuditor
