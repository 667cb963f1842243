import BlockchainAuditor.Library.FileTree
import BlockchainAuditor.Library.Transitions
import BlockchainAuditor.LocalLog

/-! The files behind the relative `log_path`: the one that a background daemon writes, and
the one that a command in the directory it was started in reads. -/

namespace BlockchainAuditor

open CStrings KeyedText FileTree Transitions

def logPath : Bytes := ascii "./log/local.log"

section Calls

variable (kernel : Kernel) (cwd : DiskPath) (disk : Disk)

def localLogInit : Disk :=
  match directoryText logPath with
  | some dir => makeDirectories kernel (origin cwd dir) (names dir) disk
  | none => disk

def localLogWriteFrom (ev : AuditEvent) : Disk :=
  match disk.openAppend kernel (resolve cwd logPath) with
  | none => disk
  | some place => disk.write place (localLogWrite (disk.file place) ev)

def localLogReadFrom : List Bytes :=
  localLogReadAll (disk.file (kernel.canonical (resolve cwd logPath)))

end Calls

def logDirectory (cwd : DiskPath) : Option DiskPath := (directoryText logPath).map (resolve cwd)

inductive BackgroundPhase
  | started
  | initialised
  | detached
  deriving DecidableEq

structure BackgroundState where
  disk : Disk
  cwd : DiskPath
  created : Option DiskPath
  phase : BackgroundPhase

/-- `others` is whatever the other processes do to the disk, at any time. -/
inductive BackgroundAction
  | inits
  | daemonizes (chdirs : Bool)
  | captures (ev : AuditEvent)
  | others (disk : Disk)

/-- The forks of `daemonize` keep the working directory, and what its `chdir` returns is not
looked at. -/
inductive BackgroundStep (kernel : Kernel) :
    BackgroundState → BackgroundAction → BackgroundState → Prop
  | inits {state} : state.phase = .started →
      BackgroundStep kernel state .inits { state with
        disk := localLogInit kernel state.cwd state.disk
        created := logDirectory state.cwd
        phase := .initialised }
  | daemonizes {state chdirs} : state.phase = .initialised →
      BackgroundStep kernel state (.daemonizes chdirs)
        { state with cwd := if chdirs then [] else state.cwd, phase := .detached }
  | captures {state ev} : state.phase = .detached →
      BackgroundStep kernel state (.captures ev)
        { state with disk := localLogWriteFrom kernel state.cwd state.disk ev }
  | others {state disk} : BackgroundStep kernel state (.others disk) { state with disk }

def background (kernel : Kernel) (start : DiskPath) : System BackgroundState BackgroundAction where
  start state := state.cwd = start ∧ state.created = none ∧ state.phase = .started
  step := BackgroundStep kernel

/-- The line goes to the file that a command in the starting directory reads, within the
directory that `local_log_init` has made. -/
structure Logged (kernel : Kernel) (start : DiskPath) (state : BackgroundState) (ev : AuditEvent) :
    Prop where
  appends : localLogWriteFrom kernel state.cwd state.disk ev =
    state.disk.write (kernel.canonical (resolve start logPath))
      (localLogWrite (state.disk.file (kernel.canonical (resolve start logPath))) ev)
  created : state.created = some (resolve start logPath).dropLast
  read : localLogReadFrom kernel start (localLogWriteFrom kernel state.cwd state.disk ev) =
    localLogReadAll (localLogWrite (state.disk.file (kernel.canonical (resolve start logPath))) ev)

/-- The daemon has stayed in the starting directory, or the root names the same file, and it
can be opened. -/
structure Findable (kernel : Kernel) (start : DiskPath) (state : BackgroundState) : Prop where
  same : state.cwd = start ∨
    kernel.canonical (resolve [] logPath) = kernel.canonical (resolve start logPath)
  opens : (state.disk.openAppend kernel (resolve state.cwd logPath)).isSome

def AllLogged (kernel : Kernel) (start : DiskPath) (state : BackgroundState) : BackgroundAction → Prop
  | .captures ev => Logged kernel start state ev
  | _ => True

def AllFindable (kernel : Kernel) (start : DiskPath) (state : BackgroundState) :
    BackgroundAction → Prop
  | .captures _ => Findable kernel start state
  | _ => True

variable {kernel : Kernel} {start : DiskPath} {state next : BackgroundState}
  {action : BackgroundAction} {ev : AuditEvent}

theorem localLogWrite_changes (log : Option Bytes) (ev : AuditEvent) :
    localLogWrite log ev ≠ log := by
  cases log with
  | none => simp [localLogWrite]
  | some contents => simp [localLogWrite]

theorem resolve_logPath (cwd : DiskPath) :
    resolve cwd logPath = cwd ++ [ascii "log", ascii "local.log"] := by
  have relative : origin cwd logPath = cwd := rfl
  have named : names logPath = [ascii "log", ascii "local.log"] := by decide
  rw [resolve, relative, named]

theorem logDirectory_eq (cwd : DiskPath) :
    logDirectory cwd = some (resolve cwd logPath).dropLast := by
  have text : directoryText logPath = some (ascii "./log") := by decide
  have named : names (ascii "./log") = [ascii "log"] := by decide
  have relative : origin cwd (ascii "./log") = cwd := rfl
  rw [logDirectory, text, Option.map_some, resolve, relative, named, resolve_logPath]
  simp

structure BackgroundInvariant (start : DiskPath) (state : BackgroundState) : Prop where
  here : state.phase ≠ .detached → state.cwd = start
  moved : state.cwd = start ∨ state.cwd = []
  created : state.phase ≠ .started → state.created = logDirectory start

theorem background_initially (started : (background kernel start).start state) :
    BackgroundInvariant start state := by
  obtain ⟨here, _, phase⟩ := started
  exact ⟨fun _ => here, Or.inl here, fun later => absurd phase later⟩

theorem background_step (invariant : BackgroundInvariant start state)
    (taken : (background kernel start).step state action next) :
    BackgroundInvariant start next := by
  cases taken with
  | inits phase =>
      have here := invariant.here (by simp [phase])
      refine ⟨fun _ => here, Or.inl here, fun _ => ?_⟩
      rw [here]
  | @daemonizes chdirs phase =>
      have here := invariant.here (by simp [phase])
      have created := invariant.created (by simp [phase])
      refine ⟨fun attached => absurd rfl attached, ?_, fun _ => created⟩
      cases chdirs with
      | true => exact Or.inr rfl
      | false => exact Or.inl here
  | captures _ | others => exact ⟨invariant.here, invariant.moved, invariant.created⟩

theorem logged_iff (invariant : BackgroundInvariant start state) (detached : state.phase = .detached) :
    Logged kernel start state ev ↔ Findable kernel start state := by
  constructor
  · intro logged
    have appends := logged.appends
    unfold localLogWriteFrom at appends
    cases opened : state.disk.openAppend kernel (resolve state.cwd logPath) with
    | none =>
        rw [opened] at appends
        exact absurd appends.symm (Disk.write_ne (localLogWrite_changes _ ev))
    | some place =>
        rw [opened] at appends
        have target := Disk.write_place (localLogWrite_changes _ ev) appends
        have named := Disk.openAppend_some opened
        refine ⟨?_, by rw [opened]; rfl⟩
        rcases invariant.moved with stayed | root
        · exact Or.inl stayed
        · rw [root] at named
          exact Or.inr (named.trans target)
  · rintro ⟨same, opens⟩
    obtain ⟨place, opened⟩ := Option.isSome_iff_exists.mp opens
    have target : place = kernel.canonical (resolve start logPath) := by
      rw [← Disk.openAppend_some opened]
      rcases same with stayed | linked
      · rw [stayed]
      · rcases invariant.moved with stayed | root
        · rw [stayed]
        · rw [root]
          exact linked
    have appends : localLogWriteFrom kernel state.cwd state.disk ev =
        state.disk.write place (localLogWrite (state.disk.file place) ev) := by
      rw [localLogWriteFrom, opened]
    rw [target] at appends
    refine ⟨appends, ?_, ?_⟩
    · exact (invariant.created (by simp [detached])).trans (logDirectory_eq start)
    · rw [appends, localLogReadFrom, Disk.write_same]

theorem logged_runs_iff {source target : BackgroundState} {actions : List BackgroundAction}
    (started : (background kernel start).start source) :
    Path ((background kernel start).restrict (AllLogged kernel start)) source actions target ↔
      Path ((background kernel start).restrict (AllFindable kernel start)) source actions target := by
  apply Path.restrict_iff (BackgroundInvariant start) (fun _ _ _ => background_step)
  · intro state action next invariant taken
    cases taken with
    | captures detached => exact logged_iff invariant detached
    | _ => exact Iff.rfl
  · exact background_initially started

theorem linked_iff (plain : Function.Injective kernel.canonical) :
    kernel.canonical (resolve [] logPath) = kernel.canonical (resolve start logPath) ↔
      start = [] := by
  rw [plain.eq_iff, resolve_logPath, resolve_logPath]
  constructor
  · intro same
    simpa using congrArg List.length same
  · rintro rfl
    rfl

def plainKernel : Kernel where
  canonical place := place
  grants _ := true

def freshDisk : Disk where
  directory place := place = [] || place = [ascii "home"]
  file _ := none

def startedIn (start : DiskPath) : BackgroundState where
  disk := freshDisk
  cwd := start
  created := none
  phase := .started

theorem startedIn_starts (start : DiskPath) :
    (background plainKernel start).start (startedIn start) :=
  ⟨rfl, rfl, rfl⟩

theorem rootDaemon_findable : ∃ target, Path ((background plainKernel []).restrict
    (AllFindable plainKernel [])) (startedIn [])
      [.inits, .daemonizes true, .captures (execveEvent (ascii "ls"))] target := by
  have opens : ((localLogInit plainKernel [] freshDisk).openAppend plainKernel
      (resolve [] logPath)).isSome = true := by
    decide +kernel
  exact ⟨_, .step ⟨trivial, .inits rfl⟩ (.step ⟨trivial, .daemonizes rfl⟩
    (.single ⟨⟨Or.inl rfl, opens⟩, .captures rfl⟩))⟩

theorem rootDaemon_logged : ∃ target, Path ((background plainKernel []).restrict
    (AllLogged plainKernel [])) (startedIn [])
      [.inits, .daemonizes true, .captures (execveEvent (ascii "ls"))] target := by
  obtain ⟨target, path⟩ := rootDaemon_findable
  exact ⟨target, (logged_runs_iff (startedIn_starts [])).mpr path⟩

def homeDetached : BackgroundState where
  disk := localLogInit plainKernel [ascii "home"] freshDisk
  cwd := []
  created := logDirectory [ascii "home"]
  phase := .detached

theorem homeDetached_path : Path (background plainKernel [ascii "home"]) (startedIn [ascii "home"])
    [.inits, .daemonizes true] homeDetached :=
  .step (.inits rfl) (.single (.daemonizes rfl))

theorem homeDetached_unopened :
    homeDetached.disk.openAppend plainKernel (resolve homeDetached.cwd logPath) = none := by
  decide +kernel

theorem homeDaemon_loses (ev : AuditEvent) :
    (localLogWriteFrom plainKernel homeDetached.cwd homeDetached.disk ev).file = fun _ => none := by
  rw [localLogWriteFrom, homeDetached_unopened]
  exact makeDirectories_file

theorem homeDetached_unlogged (ev : AuditEvent) :
    ¬Logged plainKernel [ascii "home"] homeDetached ev := by
  intro logged
  have appends := logged.appends
  rw [localLogWriteFrom, homeDetached_unopened] at appends
  exact Disk.write_ne (localLogWrite_changes _ ev) appends.symm

theorem homeDaemon_unlogged :
    (localLogWriteFrom plainKernel homeDetached.cwd homeDetached.disk
      (execveEvent (ascii "ls"))).file = (fun _ => none) ∧
    ¬∀ (kernel : Kernel) (start : DiskPath) (source target : BackgroundState)
      (actions : List BackgroundAction), (background kernel start).start source →
        Path (background kernel start) source actions target →
          Path ((background kernel start).restrict (AllLogged kernel start)) source actions
            target := by
  refine ⟨homeDaemon_loses _, ?_⟩
  intro logged
  have captures : (background plainKernel [ascii "home"]).step homeDetached
      (.captures (execveEvent (ascii "ls"))) _ := .captures rfl
  have captured := homeDetached_path.snoc captures
  have path := logged plainKernel _ _ _ _ (startedIn_starts _) captured
  cases path with
  | step inits rest =>
      cases rest with
      | step daemonizes rest =>
          cases rest with
          | step captures _ =>
              cases inits.2
              cases daemonizes.2
              exact homeDetached_unlogged _ captures.1

end BlockchainAuditor
