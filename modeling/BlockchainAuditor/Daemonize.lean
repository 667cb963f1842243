import BlockchainAuditor.IntegerText
import BlockchainAuditor.Library.LineReader
import BlockchainAuditor.Library.Transitions

/-! The pid file of `daemonize.c`: the three processes that run `daemonize`, the one of
them that writes the file, and the two commands that read it. -/

namespace BlockchainAuditor

open CStrings LineReader Transitions

inductive OriginalPlace
  | forking
  | opening (pid : Int32)
  | printing (pid : Int32)
  | returned (rc : Int)
  | exited
  deriving DecidableEq

inductive ChildPlace
  | unborn
  | detaching
  | forking
  | exiting
  | exited
  | returned (rc : Int)
  deriving DecidableEq

inductive DaemonPlace
  | unborn
  | settling
  | returned (rc : Int)
  deriving DecidableEq

/-- `written` records that the text was written, and `pidfile` is `none` when there is no
file. A pid means nothing before its process is born. -/
structure DaemonizeState where
  pidfile : Option Bytes
  written : Bool
  original : OriginalPlace
  child : ChildPlace
  daemon : DaemonPlace
  originalPid : Int32
  childPid : Int32
  daemonPid : Int32
  deriving DecidableEq

/-- What `fork` may return in the parent: no pid of a process that is still there. -/
structure Fresh (state : DaemonizeState) (pid : Int32) : Prop where
  positive : 0 < pid.toInt
  original : state.original ≠ .exited → pid ≠ state.originalPid
  child : state.child ≠ .unborn → pid ≠ state.childPid

def pidText (pid : Int32) : Bytes := formatInt pid.toInt ++ [newline]

inductive DaemonizeAction
  | originalForks (pid : Int32)
  | opens
  | prints
  | exits
  | setsid
  | childForks (pid : Int32)
  | childExits
  | settles
  | originalFails
  | childFails

inductive DaemonizeStep : DaemonizeState → DaemonizeAction → DaemonizeState → Prop
  | originalForks {state pid} : state.original = .forking → Fresh state pid →
      DaemonizeStep state (.originalForks pid)
        { state with original := .opening pid, child := .detaching, childPid := pid }
  | forkFails {state} : state.original = .forking →
      DaemonizeStep state .originalFails { state with original := .returned (-1) }
  | opens {state pid} : state.original = .opening pid →
      DaemonizeStep state .opens { state with original := .printing pid, pidfile := some [] }
  | openFails {state pid} : state.original = .opening pid →
      DaemonizeStep state .originalFails { state with original := .returned 1 }
  | prints {state pid} : state.original = .printing pid →
      DaemonizeStep state .prints
        { state with original := .returned 1, pidfile := some (pidText pid), written := true }
  | exits {state rc} : state.original = .returned rc →
      DaemonizeStep state .exits { state with original := .exited }
  | setsid {state} : state.child = .detaching →
      DaemonizeStep state .setsid { state with child := .forking }
  | setsidFails {state} : state.child = .detaching →
      DaemonizeStep state .childFails { state with child := .returned (-1) }
  | childForks {state pid} : state.child = .forking → Fresh state pid →
      DaemonizeStep state (.childForks pid)
        { state with child := .exiting, daemon := .settling, daemonPid := pid }
  | childForkFails {state} : state.child = .forking →
      DaemonizeStep state .childFails { state with child := .returned (-1) }
  | childExits {state} : state.child = .exiting →
      DaemonizeStep state .childExits { state with child := .exited }
  | settles {state} : state.daemon = .settling →
      DaemonizeStep state .settles { state with daemon := .returned 0 }

def daemonizing : System DaemonizeState DaemonizeAction where
  start state := state.original = .forking ∧ state.child = .unborn ∧ state.daemon = .unborn ∧
    state.written = false ∧ 0 < state.originalPid.toInt
  step := DaemonizeStep

structure Finished (state : DaemonizeState) : Prop where
  original : state.original = .returned 1 ∨ state.original = .exited
  child : state.child = .exited
  daemon : state.daemon = .returned 0

def pidfilePath : Bytes := ascii "/var/run/blockchain_auditor.pid"

def sigterm : Int32 := 15

/-- What a command did: its return value, its calls of `kill`, what it printed, and the
pid file it left. -/
structure PidfileOutcome where
  rc : Int
  killed : List (Int32 × Int32)
  printed : Bytes
  pidfile : Option Bytes
  deriving DecidableEq

/-- `fscanf(f, "%d", &pid)`: when it reads no number, `pid` is what the local was. -/
def readPid (overflow : Overflow) (uninitialised : Int32) (contents : Bytes) : Option Int32 :=
  match scanInteger contents with
  | none => some uninitialised
  | some value => narrow overflow value

section Commands

variable (kill : Int32 → Int32 → Int32) (overflow : Overflow) (uninitialised : Int32)
  (pidfile : Option Bytes)

def daemonStop (file : Option Bytes) : Option PidfileOutcome :=
  let path := pidfile.getD pidfilePath
  match file with
  | none => some ⟨-1, [], ascii "PID file not found: " ++ path ++ [newline], none⟩
  | some contents => do
    let pid ← readPid overflow uninitialised contents
    return if kill pid sigterm = 0 then ⟨0, [(pid, sigterm)], [], none⟩
      else ⟨-1, [(pid, sigterm)], ascii "Failed to stop daemon (PID " ++ formatInt pid.toInt ++
        ascii "): not running" ++ [newline], none⟩

def daemonStatus (file : Option Bytes) : Option PidfileOutcome :=
  match file with
  | none => some ⟨0, [], [], none⟩
  | some contents => do
    let pid ← readPid overflow uninitialised contents
    return if kill pid 0 = 0 then
        ⟨1, [(pid, 0)], ascii "Daemon running (PID " ++ formatInt pid.toInt ++ ascii ")" ++
          [newline], some contents⟩
      else ⟨0, [(pid, 0)], [], none⟩

end Commands

theorem readPid_pidText (overflow : Overflow) (uninitialised pid : Int32) :
    readPid overflow uninitialised (pidText pid) = some pid := by
  have scanned := scanInteger_formatInt [] pid.toInt (by decide : isDigit newline = false)
  simp only [readPid, pidText, scanned]
  exact narrow_toInt overflow pid

/-- The file makes both commands act on one process, whatever the local held before. -/
def Names (file : Option Bytes) (pid : Int32) : Prop :=
  ∀ kill overflow uninitialised pidfile, ∃ stop status,
    daemonStop kill overflow uninitialised pidfile file = some stop ∧
    stop.killed = [(pid, sigterm)] ∧
    daemonStatus kill overflow uninitialised file = some status ∧ status.killed = [(pid, 0)]

theorem pidText_names (pid : Int32) : Names (some (pidText pid)) pid := by
  intro kill overflow uninitialised pidfile
  simp only [daemonStop, daemonStatus, readPid_pidText, Option.bind_eq_bind, Option.bind_some]
  refine ⟨_, _, rfl, ?_, rfl, ?_⟩
  · split <;> rfl
  · split <;> rfl

theorem Names.unique {file : Option Bytes} {left right : Int32} (names : Names file left)
    (otherNames : Names file right) : left = right := by
  obtain ⟨stop, _, returned, killed, _⟩ := names (fun _ _ => 0) (fun _ => none) 0 none
  obtain ⟨other, _, otherReturned, otherKilled, _⟩ :=
    otherNames (fun _ _ => 0) (fun _ => none) 0 none
  obtain rfl := Option.some.inj (returned.symm.trans otherReturned)
  simpa using killed.symm.trans otherKilled

structure PidfileInvariant (state : DaemonizeState) : Prop where
  unborn : state.original = .forking → state.child = .unborn
  holds : ∀ pid, state.original = .opening pid ∨ state.original = .printing pid →
    pid = state.childPid ∧ state.written = false
  daemonUnborn : state.child = .unborn ∨ state.child = .detaching ∨ state.child = .forking →
    state.daemon = .unborn
  written : state.written = true →
    state.pidfile = some (pidText state.childPid) ∧ state.original ≠ .forking
  distinct : state.daemon ≠ .unborn → state.daemonPid ≠ state.childPid

theorem daemonizing_initially {state : DaemonizeState} (started : daemonizing.start state) :
    PidfileInvariant state := by
  obtain ⟨original, child, daemon, written, _⟩ := started
  constructor <;> simp [original, child, daemon, written]

theorem daemonizeStep_invariant {state next : DaemonizeState} {action : DaemonizeAction}
    (invariant : PidfileInvariant state) (taken : DaemonizeStep state action next) :
    PidfileInvariant next := by
  obtain ⟨unborn, holds, daemonUnborn, written, distinct⟩ := invariant
  have born : state.child ≠ .unborn → state.original ≠ .forking :=
    fun hasChild forking => hasChild (unborn forking)
  cases taken with
  | originalForks forking _ =>
      have noDaemon := daemonUnborn (Or.inl (unborn forking))
      have notWritten : state.written = false := by
        by_contra wrote
        exact (written (by simpa using wrote)).2 forking
      constructor <;> simp [noDaemon, notWritten]
  | opens opening =>
      obtain ⟨pidEq, notWritten⟩ := holds _ (Or.inl opening)
      exact ⟨by simp, by simp [pidEq, notWritten], daemonUnborn, by simp [notWritten], distinct⟩
  | prints printing =>
      obtain ⟨pidEq, _⟩ := holds _ (Or.inr printing)
      exact ⟨by simp, by simp, daemonUnborn, by simp [pidEq], distinct⟩
  | forkFails _ | openFails _ | exits _ =>
      exact ⟨by simp, by simp, daemonUnborn, fun wrote => ⟨(written wrote).1, by simp⟩, distinct⟩
  | setsid detaching =>
      have noDaemon := daemonUnborn (Or.inr (Or.inl detaching))
      exact ⟨fun forking => absurd forking (born (by simp [detaching])), holds,
        fun _ => noDaemon, written, distinct⟩
  | childForks forking fresh =>
      have hasChild : state.child ≠ .unborn := by simp [forking]
      exact ⟨fun original => absurd original (born hasChild), holds, by simp, written,
        fun _ => fresh.child hasChild⟩
  | setsidFails child | childForkFails child | childExits child =>
      exact ⟨fun forking => absurd forking (born (by simp [child])), holds, by simp, written,
        distinct⟩
  | settles settling =>
      refine ⟨unborn, holds, fun early => ?_, written, fun _ => distinct (by simp [settling])⟩
      exact absurd (daemonUnborn early) (by simp [settling])

/-- The file holds the pid of the process that `daemonize` returned 0 in, and the commands
act on that process. -/
structure NamesDaemon (state : DaemonizeState) : Prop where
  holds : state.pidfile = some (pidText state.daemonPid)
  acts : Names state.pidfile state.daemonPid

/-- Whatever pids the kernel gives, the file names the process that has already exited. -/
theorem daemonize_misnames {state : DaemonizeState} (reachable : daemonizing.Reachable state)
    (finished : Finished state) (written : state.written = true) :
    state.pidfile = some (pidText state.childPid) ∧ Names state.pidfile state.childPid ∧
      state.child = .exited ∧ state.pidfile ≠ some (pidText state.daemonPid) ∧
        ¬Names state.pidfile state.daemonPid := by
  have invariant := reachable.invariant PidfileInvariant
    (fun _ started => daemonizing_initially started)
    (fun _ _ _ before taken => daemonizeStep_invariant before taken)
  have contents := (invariant.written written).1
  have names : Names state.pidfile state.childPid := by
    rw [contents]
    exact pidText_names _
  have notDaemon : ¬Names state.pidfile state.daemonPid := fun daemonNamed =>
    invariant.distinct (by simp [finished.daemon]) (daemonNamed.unique names)
  refine ⟨contents, names, finished.child, fun holds => notDaemon ?_, notDaemon⟩
  rw [holds]
  exact pidText_names _

def daemonizeStart : DaemonizeState where
  pidfile := none
  written := false
  original := .forking
  child := .unborn
  daemon := .unborn
  originalPid := 100
  childPid := 0
  daemonPid := 0

def daemonizeEnd : DaemonizeState where
  pidfile := some (ascii "101\n")
  written := true
  original := .returned 1
  child := .exited
  daemon := .returned 0
  originalPid := 100
  childPid := 101
  daemonPid := 102

theorem daemonizeEnd_reachable : daemonizing.Reachable daemonizeEnd := by
  have path : Path daemonizing daemonizeStart [.originalForks 101, .opens, .prints, .setsid,
      .childForks 102, .childExits, .settles] daemonizeEnd :=
    .step (.originalForks rfl ⟨by decide, by decide, by decide⟩) <| .step (.opens rfl) <|
    .step (.prints rfl) <| .step (.setsid rfl) <|
    .step (.childForks rfl ⟨by decide, by decide, by decide⟩) <| .step (.childExits rfl) <|
    .step (.settles rfl) <| .refl _
  exact ⟨daemonizeStart, _, ⟨rfl, rfl, rfl, rfl, by decide⟩, path⟩

theorem daemonizeEnd_finished : Finished daemonizeEnd := ⟨Or.inl rfl, rfl, rfl⟩

theorem daemonizeEnd_misnamed : daemonizeEnd.pidfile = some (pidText 101) ∧
    Names daemonizeEnd.pidfile 101 ∧ daemonizeEnd.child = .exited ∧
      daemonizeEnd.pidfile ≠ some (pidText 102) ∧ ¬Names daemonizeEnd.pidfile 102 :=
  daemonize_misnames daemonizeEnd_reachable daemonizeEnd_finished rfl

theorem pidfile_misses_daemon : ¬∀ state, daemonizing.Reachable state → Finished state →
    state.written = true → NamesDaemon state := by
  intro named
  have daemonNamed := named daemonizeEnd daemonizeEnd_reachable daemonizeEnd_finished rfl
  exact absurd (daemonNamed.acts.unique (pidText_names 101)) (by decide)

end BlockchainAuditor
