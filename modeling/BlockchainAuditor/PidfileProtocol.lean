import BlockchainAuditor.PidfileReading
import BlockchainAuditor.Library.Inodes

/-! The pid file among any number of processes: invocations that run `daemonize`, and the commands
`daemon stop` and `daemon status`, interleaved call by call. -/

namespace BlockchainAuditor

open CStrings LineReader Transitions Inodes

structure Launch where
  processes : DaemonizeState
  handle : Option Nat

inductive PidfileCommand
  | stop
  | status
  deriving DecidableEq

def PidfileCommand.signal : PidfileCommand → Int32
  | .stop => sigterm
  | .status => 0

def PidfileCommand.run (command : PidfileCommand) (kill : Int32 → Int32 → Int32)
    (overflow : Overflow) (uninitialised : Int32) (file : Option Bytes) : Option PidfileOutcome :=
  match command with
  | .stop => daemonStop kill overflow uninitialised (some pidfilePath) file
  | .status => daemonStatus kill overflow uninitialised file

def PidfileCommand.unlinks (command : PidfileCommand) (answer : Int32) : Bool :=
  command = .stop ∨ answer ≠ 0

inductive CommandPlace
  | starting (command : PidfileCommand)
  | reading (command : PidfileCommand) (inode : Nat)
  | signalling (command : PidfileCommand) (pid : Int32)
  | unlinking
  | returned

structure PidfileMachine where
  disk : Disk UInt8
  launches : List Launch
  commands : List CommandPlace

inductive PidfileAction
  | launches (processes : DaemonizeState)
  | daemonizes (i : Nat) (action : DaemonizeAction)
  | invokes (command : PidfileCommand)
  | opens (j : Nat)
  | scans (j : Nat) (uninitialised pid : Int32)
  | kills (j : Nat) (pid signal answer : Int32)
  | unlinks (j : Nat)

inductive PidfileStep (overflow : Overflow) :
    PidfileMachine → PidfileAction → PidfileMachine → Prop
  | launches {machine processes} : daemonizing.start processes →
      PidfileStep overflow machine (.launches processes)
        { machine with launches := machine.launches ++ [⟨processes, none⟩] }
  | fopens {machine : PidfileMachine} {i launch next} : machine.launches[i]? = some launch →
      DaemonizeStep launch.processes .opens next →
      PidfileStep overflow machine (.daemonizes i .opens) { machine with
        disk := machine.disk.openWrite.1
        launches := machine.launches.set i ⟨next, some machine.disk.openWrite.2⟩ }
  -- `fprintf` and `fclose`
  | prints {machine : PidfileMachine} {i launch next pid inode} : machine.launches[i]? = some launch →
      launch.processes.original = .printing pid → launch.handle = some inode →
      DaemonizeStep launch.processes .prints next →
      PidfileStep overflow machine (.daemonizes i .prints) { machine with
        disk := machine.disk.print inode (pidText pid)
        launches := machine.launches.set i ⟨next, none⟩ }
  | daemonizes {machine : PidfileMachine} {i launch action next} :
      machine.launches[i]? = some launch → action ≠ .opens → action ≠ .prints →
      DaemonizeStep launch.processes action next →
      PidfileStep overflow machine (.daemonizes i action) { machine with
        launches := machine.launches.set i { launch with processes := next } }
  | invokes {machine command} : PidfileStep overflow machine (.invokes command)
      { machine with commands := machine.commands ++ [.starting command] }
  | opens {machine : PidfileMachine} {j command inode} :
      machine.commands[j]? = some (.starting command) → machine.disk.path = some inode →
      PidfileStep overflow machine (.opens j)
        { machine with commands := machine.commands.set j (.reading command inode) }
  | finds {machine : PidfileMachine} {j command} :
      machine.commands[j]? = some (.starting command) → machine.disk.path = none →
      PidfileStep overflow machine (.opens j)
        { machine with commands := machine.commands.set j .returned }
  -- `fscanf` and `fclose`
  | scans {machine : PidfileMachine} {j command inode uninitialised pid} :
      machine.commands[j]? = some (.reading command inode) →
      readPid overflow uninitialised (machine.disk.files inode) = some pid →
      PidfileStep overflow machine (.scans j uninitialised pid)
        { machine with commands := machine.commands.set j (.signalling command pid) }
  | kills {machine : PidfileMachine} {j command pid answer} :
      machine.commands[j]? = some (.signalling command pid) →
      PidfileStep overflow machine (.kills j pid command.signal answer) { machine with
        commands := machine.commands.set j
          (if command.unlinks answer then .unlinking else .returned) }
  | unlinks {machine : PidfileMachine} {j} : machine.commands[j]? = some .unlinking →
      PidfileStep overflow machine (.unlinks j) { machine with
        disk := machine.disk.unlink
        commands := machine.commands.set j .returned }

def pidfileMachine (overflow : Overflow) : System PidfileMachine PidfileAction where
  start machine := machine.disk.path = none ∧ machine.disk.next = 0 ∧ machine.launches = [] ∧
    machine.commands = []
  step := PidfileStep overflow

section Processes

variable {state next : DaemonizeState} {action : DaemonizeAction} {pid : Int32}

theorem keepsChild (invariant : PidfileInvariant state) (taken : DaemonizeStep state action next)
    (born : state.child ≠ .unborn) : next.child ≠ .unborn ∧ next.childPid = state.childPid := by
  cases taken with
  | originalForks forking _ => exact absurd (invariant.unborn forking) born
  | _ => exact ⟨by simp_all, rfl⟩

theorem keepsDaemon (invariant : PidfileInvariant state) (taken : DaemonizeStep state action next)
    (born : state.daemon ≠ .unborn) : next.daemon ≠ .unborn ∧ next.daemonPid = state.daemonPid := by
  cases taken with
  | childForks forking _ => exact absurd (invariant.daemonUnborn (Or.inr (Or.inr forking))) born
  | _ => exact ⟨by simp_all, rfl⟩

theorem keepsPrinting (taken : DaemonizeStep state action next) (other : action ≠ .prints)
    (printing : state.original = .printing pid) : next.original = .printing pid := by
  cases taken <;> simp_all

/-- The original goes on to the file only when it has a child. -/
structure LaunchInvariant (state : DaemonizeState) : Prop extends PidfileInvariant state where
  born : ∀ pid, state.original = .opening pid ∨ state.original = .printing pid →
    state.child ≠ .unborn

theorem launch_initially (started : daemonizing.start state) : LaunchInvariant state where
  toPidfileInvariant := daemonizing_initially started
  born pid place := by simp [started.1] at place

theorem launch_step (invariant : LaunchInvariant state) (taken : DaemonizeStep state action next) :
    LaunchInvariant next where
  toPidfileInvariant := daemonizeStep_invariant invariant.toPidfileInvariant taken
  born pid place := by
    have born := invariant.born
    cases taken with
    | originalForks _ _ => simp
    | opens opening => exact born _ (Or.inl opening)
    | forkFails _ | openFails _ | exits _ | prints _ => simp at place
    | settles _ => exact born pid place
    | setsid _ | setsidFails _ | childForks _ _ | childForkFails _ | childExits _ => simp

theorem opens_prints (taken : DaemonizeStep state .opens next) :
    ∃ pid, state.original = .opening pid ∧ next.original = .printing pid := by
  cases taken with
  | opens opening => exact ⟨_, opening, rfl⟩

end Processes

section Contents

variable {overflow : Overflow} {machine next : PidfileMachine} {action : PidfileAction}
  {inode : Nat}

/-- The file starts with the pid of a launch's child, or one that has opened it has yet to print. -/
def Written (machine : PidfileMachine) (inode : Nat) : Prop :=
  (machine.disk.files inode = [] ∧ ∃ launch ∈ machine.launches, launch.handle = some inode ∧
    ∃ pid, launch.processes.original = .printing pid) ∨
  ∃ launch ∈ machine.launches, launch.processes.child ≠ .unborn ∧
    pidText launch.processes.childPid <+: machine.disk.files inode

structure CarriesOn (inode : Nat) (launch after : Launch) : Prop where
  child : launch.processes.child ≠ .unborn →
    after.processes.child ≠ .unborn ∧ after.processes.childPid = launch.processes.childPid
  printing : ∀ pid, launch.handle = some inode → launch.processes.original = .printing pid →
    after.handle = some inode ∧ after.processes.original = .printing pid

theorem CarriesOn.same (launch : Launch) : CarriesOn inode launch launch :=
  ⟨fun born => ⟨born, rfl⟩, fun _ opened printing => ⟨opened, printing⟩⟩

theorem Written.carried (written : Written machine inode)
    (same : next.disk.files inode = machine.disk.files inode)
    (carries : ∀ launch ∈ machine.launches, ∃ after ∈ next.launches, CarriesOn inode launch after) :
    Written next inode := by
  rcases written with ⟨empty, launch, member, opened, pid, printing⟩ | ⟨launch, member, born, starts⟩
  · obtain ⟨after, still, carried⟩ := carries launch member
    obtain ⟨afterOpened, afterPrinting⟩ := carried.printing pid opened printing
    exact Or.inl ⟨same.trans empty, after, still, afterOpened, pid, afterPrinting⟩
  · obtain ⟨after, still, carried⟩ := carries launch member
    obtain ⟨afterBorn, samePid⟩ := carried.child born
    exact Or.inr ⟨after, still, afterBorn, by rwa [samePid, same]⟩

theorem set_carries {launches : List Launch} {i : Nat} {launch after : Launch}
    (here : launches[i]? = some launch) (carried : CarriesOn inode launch after) :
    ∀ other ∈ launches, ∃ still ∈ launches.set i after, CarriesOn inode other still := by
  intro other member
  obtain ⟨inside, rfl⟩ := List.getElem?_eq_some_iff.mp here
  obtain ⟨k, bound, rfl⟩ := List.getElem_of_mem member
  by_cases own : i = k
  · subst own
    exact ⟨after, List.mem_set inside after, carried⟩
  · refine ⟨launches[k], ?_, CarriesOn.same _⟩
    rw [← List.getElem_set_ne own (by simpa using bound)]
    exact List.getElem_mem _

structure MachineInvariant (machine : PidfileMachine) : Prop where
  launched : ∀ launch ∈ machine.launches, LaunchInvariant launch.processes
  path : ∀ inode, machine.disk.path = some inode → inode < machine.disk.next
  handles : ∀ launch ∈ machine.launches, ∀ inode, launch.handle = some inode →
    inode < machine.disk.next
  reading : ∀ command inode, .reading command inode ∈ machine.commands → inode < machine.disk.next
  contents : ∀ inode < machine.disk.next, Written machine inode

theorem machine_initially (started : (pidfileMachine overflow).start machine) :
    MachineInvariant machine := by
  obtain ⟨path, none, launches, commands⟩ := started
  constructor <;> simp [path, none, launches, commands]

theorem launched_set {launches : List Launch} {i : Nat} {after : Launch}
    {holds : Launch → Prop} (all : ∀ other ∈ launches, holds other) (new : holds after) :
    ∀ other ∈ launches.set i after, holds other := by
  intro other member
  rcases List.mem_or_eq_of_mem_set member with old | rfl
  · exact all other old
  · exact new

theorem commands_set {commands : List CommandPlace} {j bound : Nat} {after : CommandPlace}
    (all : ∀ command inode, .reading command inode ∈ commands → inode < bound)
    (new : ∀ command inode, after = .reading command inode → inode < bound) :
    ∀ command inode, .reading command inode ∈ commands.set j after → inode < bound := by
  intro command inode member
  rcases List.mem_or_eq_of_mem_set member with old | same
  · exact all command inode old
  · exact new command inode same.symm

section Printing

variable {i place : Nat} {launch : Launch} {after : DaemonizeState} {pid : Int32}

theorem fopens_written (invariant : MachineInvariant machine)
    (here : machine.launches[i]? = some launch) (taken : DaemonizeStep launch.processes .opens after)
    (below : inode < machine.disk.openWrite.1.next) :
    Written { machine with
      disk := machine.disk.openWrite.1
      launches := machine.launches.set i ⟨after, some machine.disk.openWrite.2⟩ } inode := by
  have old := invariant.launched launch (List.mem_of_getElem? here)
  obtain ⟨pid, opening, printing⟩ := opens_prints taken
  by_cases own : inode = machine.disk.openWrite.2
  · obtain ⟨inside, -⟩ := List.getElem?_eq_some_iff.mp here
    rw [own]
    exact Or.inl ⟨machine.disk.openWrite_contents.2, _, List.mem_set inside _, rfl, pid, printing⟩
  · obtain ⟨same, early⟩ := (Disk.openWrite_grows invariant.path).2.2 inode own
    refine (invariant.contents inode (early below)).carried same (set_carries here ⟨?_, ?_⟩)
    · exact fun born => keepsChild old.toPidfileInvariant taken born
    · intro other _ already
      rw [opening] at already
      cases already

theorem prints_written (invariant : MachineInvariant machine)
    (here : machine.launches[i]? = some launch) (printing : launch.processes.original = .printing pid)
    (opened : launch.handle = some place) (taken : DaemonizeStep launch.processes .prints after)
    (below : inode < machine.disk.next) :
    Written { machine with
      disk := machine.disk.print place (pidText pid)
      launches := machine.launches.set i ⟨after, none⟩ } inode := by
  have old := invariant.launched launch (List.mem_of_getElem? here)
  have born := old.born pid (Or.inr printing)
  obtain ⟨still, samePid⟩ := keepsChild old.toPidfileInvariant taken born
  by_cases own : inode = place
  · obtain ⟨inside, -⟩ := List.getElem?_eq_some_iff.mp here
    refine Or.inr ⟨_, List.mem_set inside _, still, ?_⟩
    rw [own, samePid, ← (old.holds pid (Or.inr printing)).1]
    simp [Disk.print]
  · refine (invariant.contents inode below).carried (Function.update_of_ne own _ _)
      (set_carries here ⟨fun _ => ⟨still, samePid⟩, fun other handle _ => ?_⟩)
    exact absurd (Option.some.inj (handle.symm.trans opened)) own

end Printing

theorem machine_step (invariant : MachineInvariant machine)
    (taken : (pidfileMachine overflow).step machine action next) : MachineInvariant next := by
  have whole := invariant
  obtain ⟨launched, path, handles, reading, contents⟩ := invariant
  cases taken with
  | @launches processes started =>
      refine ⟨?_, path, ?_, reading, fun inode below => ?_⟩
      · simpa [or_imp, forall_and] using ⟨launched, launch_initially started⟩
      · simpa [or_imp, forall_and] using handles
      · refine (contents inode below).carried rfl fun launch member => ⟨launch, ?_, CarriesOn.same _⟩
        exact List.mem_append_left _ member
  | @fopens i launch after here taken =>
      have old := launched launch (List.mem_of_getElem? here)
      obtain ⟨below, longer, -⟩ := Disk.openWrite_grows path
      refine ⟨launched_set launched (launch_step old taken), ?_, ?_, ?_, fun _ =>
        fopens_written whole here taken⟩
      · intro inode same
        obtain rfl := Option.some.inj (machine.disk.openWrite_contents.1.symm.trans same)
        exact below
      · refine launched_set (fun other member inode same => ?_) fun inode same => ?_
        · exact Nat.lt_of_lt_of_le (handles other member inode same) longer
        · obtain rfl := Option.some.inj same
          exact below
      · exact fun command inode member => Nat.lt_of_lt_of_le (reading command inode member) longer
  | @prints i launch after pid place here printing opened taken =>
      have old := launched launch (List.mem_of_getElem? here)
      refine ⟨launched_set launched (launch_step old taken), path, ?_, reading, fun _ =>
        prints_written whole here printing opened taken⟩
      exact launched_set handles fun inode same => by cases same
  | @daemonizes i launch action after here notOpens notPrints taken =>
      have old := launched launch (List.mem_of_getElem? here)
      refine ⟨launched_set launched (launch_step old taken), path, ?_, reading, fun inode under => ?_⟩
      · exact launched_set handles (handles launch (List.mem_of_getElem? here))
      · refine (contents inode under).carried rfl
          (set_carries here ⟨fun born => ?_, fun pid handle at' => ?_⟩)
        · exact keepsChild old.toPidfileInvariant taken born
        · exact ⟨handle, keepsPrinting taken notPrints at'⟩
  | invokes =>
      refine ⟨launched, path, handles, ?_, contents⟩
      simpa using reading
  | @opens j command place _ named =>
      refine ⟨launched, path, handles, commands_set reading fun _ inode same => ?_, contents⟩
      obtain ⟨-, rfl⟩ := CommandPlace.reading.inj same
      exact path _ named
  | finds _ _ =>
      exact ⟨launched, path, handles, commands_set reading fun _ _ same => (by cases same), contents⟩
  | scans _ _ =>
      exact ⟨launched, path, handles, commands_set reading fun _ _ same => (by cases same), contents⟩
  | kills _ =>
      refine ⟨launched, path, handles, commands_set reading fun _ _ same => ?_, contents⟩
      split at same <;> cases same
  | unlinks _ =>
      refine ⟨launched, fun _ same => (by cases same), handles,
        commands_set reading fun _ _ same => (by cases same), ?_⟩
      exact fun inode under => (contents inode under).carried rfl fun launch member =>
        ⟨launch, member, CarriesOn.same _⟩

/-- What the command does is to scan the pid and to send it its signal. -/
theorem command_calls {command : PidfileCommand} {kill : Int32 → Int32 → Int32}
    {uninitialised : Int32} {contents : Bytes} {outcome : PidfileOutcome}
    (ran : command.run kill overflow uninitialised (some contents) = some outcome) :
    ∃ pid, readPid overflow uninitialised contents = some pid ∧
      outcome.killed = [(pid, command.signal)] ∧
      (outcome.pidfile = none ↔ command.unlinks (kill pid command.signal) = true) := by
  cases command with
  | stop =>
      obtain ⟨pid, read, returned⟩ := Option.bind_eq_some_iff.mp ran
      obtain rfl := Option.some.inj returned
      refine ⟨pid, read, ?_, ?_⟩
      · split <;> rfl
      · split <;> simp [PidfileCommand.unlinks]
  | status =>
      obtain ⟨pid, read, returned⟩ := Option.bind_eq_some_iff.mp ran
      obtain rfl := Option.some.inj returned
      refine ⟨pid, read, ?_, ?_⟩
      · split <;> rfl
      · by_cases running : kill pid 0 = 0
        · simp [PidfileCommand.unlinks, PidfileCommand.signal, running]
        · simp [PidfileCommand.unlinks, PidfileCommand.signal, running]

theorem readPid_starts (uninitialised pid : Int32) {contents : Bytes}
    (starts : pidText pid <+: contents) : readPid overflow uninitialised contents = some pid := by
  obtain ⟨rest, rfl⟩ := starts
  have scanned := scanInteger_formatInt rest pid.toInt (by decide : isDigit newline = false)
  rw [pidText, List.append_assoc, List.singleton_append]
  simp only [readPid, scanned]
  exact narrow_toInt overflow pid

theorem launches_cases (taken : (pidfileMachine overflow).step machine action next) :
    next.launches = machine.launches ∨
    (∃ processes, daemonizing.start processes ∧
      next.launches = machine.launches ++ [⟨processes, none⟩]) ∨
    ∃ i launch made after handle, machine.launches[i]? = some launch ∧ action = .daemonizes i made ∧
      DaemonizeStep launch.processes made after ∧
      next.launches = machine.launches.set i ⟨after, handle⟩ := by
  cases taken with
  | launches started => exact Or.inr (Or.inl ⟨_, started, rfl⟩)
  | fopens here taken => exact Or.inr (Or.inr ⟨_, _, _, _, _, here, rfl, taken, rfl⟩)
  | prints here _ _ taken => exact Or.inr (Or.inr ⟨_, _, _, _, _, here, rfl, taken, rfl⟩)
  | daemonizes here _ _ taken => exact Or.inr (Or.inr ⟨_, _, _, _, _, here, rfl, taken, rfl⟩)
  | invokes | opens _ _ | finds _ _ | scans _ _ | kills _ | unlinks _ => exact Or.inl rfl

def IsChild (machine : PidfileMachine) (pid : Int32) : Prop :=
  ∃ launch ∈ machine.launches, launch.processes.child ≠ .unborn ∧ launch.processes.childPid = pid

theorem isChild_step (invariant : MachineInvariant machine) {pid : Int32}
    (taken : (pidfileMachine overflow).step machine action next) (child : IsChild machine pid) :
    IsChild next pid := by
  obtain ⟨launch, member, born, rfl⟩ := child
  rcases launches_cases taken with same | ⟨processes, -, longer⟩ |
    ⟨i, old, made, after, handle, here, -, steps, set⟩
  · exact ⟨launch, same ▸ member, born, rfl⟩
  · exact ⟨launch, longer ▸ List.mem_append_left _ member, born, rfl⟩
  · obtain ⟨inside, rfl⟩ := List.getElem?_eq_some_iff.mp here
    obtain ⟨k, bound, rfl⟩ := List.getElem_of_mem member
    by_cases own : i = k
    · subst own
      obtain ⟨still, samePid⟩ := keepsChild (invariant.launched _ member).toPidfileInvariant steps born
      exact ⟨_, set ▸ List.mem_set inside _, still, samePid⟩
    · refine ⟨machine.launches[k], ?_, born, rfl⟩
      rw [set, ← List.getElem_set_ne own (by simpa using bound)]
      exact List.getElem_mem _

/-- A launch has emptied the file that the command has opened, and has yet to print. -/
def Truncated (machine : PidfileMachine) (j : Nat) : Prop :=
  ∃ command inode, machine.commands[j]? = some (.reading command inode) ∧
    machine.disk.files inode = [] ∧ ∃ launch ∈ machine.launches, launch.handle = some inode ∧
      ∃ pid, launch.processes.original = .printing pid

theorem scan_cases (invariant : MachineInvariant machine) {j : Nat} {uninitialised pid : Int32}
    (taken : (pidfileMachine overflow).step machine (.scans j uninitialised pid) next) :
    Truncated machine j ∧ pid = uninitialised ∨ IsChild machine pid := by
  cases taken with
  | @scans _ command inode _ _ here read =>
      have below := invariant.reading command inode (List.mem_of_getElem? here)
      rcases invariant.contents inode below with ⟨empty, launch, member, opened, printing⟩ |
        ⟨launch, member, born, starts⟩
      · have same : uninitialised = pid := by
          rw [empty] at read
          simpa [readPid, scanInteger, scanSigned] using read
        exact Or.inl ⟨⟨command, inode, here, empty, launch, member, opened, printing⟩, same.symm⟩
      · rw [readPid_starts uninitialised _ starts] at read
        exact Or.inr ⟨launch, member, born, Option.some.inj read⟩

theorem commands_set_cases {commands : List CommandPlace} {j k : Nat} {after place : CommandPlace}
    (there : (commands.set k after)[j]? = some place) :
    commands[j]? = some place ∨ j = k ∧ after = place := by
  rw [List.getElem?_set] at there
  split at there
  · split at there
    · exact Or.inr ⟨by omega, Option.some.inj there⟩
    · cases there
  · exact Or.inl there

theorem signalling_cases (taken : (pidfileMachine overflow).step machine action next) {j : Nat}
    {command : PidfileCommand} {pid : Int32}
    (there : next.commands[j]? = some (.signalling command pid)) :
    machine.commands[j]? = some (.signalling command pid) ∨
      ∃ uninitialised, action = .scans j uninitialised pid := by
  cases taken with
  | launches _ | fopens _ _ | prints _ _ _ _ | daemonizes _ _ _ _ => exact Or.inl there
  | invokes =>
      rw [List.getElem?_append] at there
      split at there
      · exact Or.inl there
      · simp only [List.getElem?_singleton] at there
        split at there <;> cases there
  | scans _ _ =>
      rcases commands_set_cases there with before | ⟨rfl, same⟩
      · exact Or.inl before
      · obtain ⟨-, rfl⟩ := CommandPlace.signalling.inj same
        exact Or.inr ⟨_, rfl⟩
  | opens _ _ | finds _ _ | unlinks _ =>
      rcases commands_set_cases there with before | ⟨-, same⟩
      · exact Or.inl before
      · cases same
  | kills _ =>
      rcases commands_set_cases there with before | ⟨-, same⟩
      · exact Or.inl before
      · split at same <;> cases same

/-- Where in a run the command has scanned the pid. -/
def ScannedAt (overflow : Overflow) (source : PidfileMachine) (actions : List PidfileAction) (j : Nat)
    (uninitialised pid : Int32) (machine : PidfileMachine) : Prop :=
  ∃ before after, actions = before ++ .scans j uninitialised pid :: after ∧
    Path (pidfileMachine overflow) source before machine

variable {source : PidfileMachine} {actions : List PidfileAction} {j : Nat} {pid signal answer : Int32}

/-- What every command that is about to send a signal has scanned, and what that is. -/
structure ScanRecord (overflow : Overflow) (source : PidfileMachine) (done : List PidfileAction)
    (machine : PidfileMachine) : Prop where
  reached : Path (pidfileMachine overflow) source done machine
  invariant : MachineInvariant machine
  scanned : ∀ j command pid, machine.commands[j]? = some (.signalling command pid) →
    ∃ uninitialised middle, ScannedAt overflow source done j uninitialised pid middle ∧
      (Truncated middle j ∧ pid = uninitialised ∨ IsChild middle pid ∧ IsChild machine pid)

theorem scanRecord_step {done : List PidfileAction} (record : ScanRecord overflow source done machine)
    (taken : (pidfileMachine overflow).step machine action next) :
    ScanRecord overflow source (done ++ [action]) next where
  reached := record.reached.snoc taken
  invariant := machine_step record.invariant taken
  scanned j command pid there := by
    rcases signalling_cases taken there with before | ⟨uninitialised, rfl⟩
    · obtain ⟨uninitialised, middle, ⟨front, behind, split, reached⟩, origin⟩ :=
        record.scanned j command pid before
      refine ⟨uninitialised, middle, ⟨front, behind ++ [action], by simp [split], reached⟩, ?_⟩
      exact origin.imp_right fun child => ⟨child.1, isChild_step record.invariant taken child.2⟩
    · refine ⟨uninitialised, machine, ⟨done, [], rfl, record.reached⟩, ?_⟩
      exact (scan_cases record.invariant taken).imp_right fun child =>
        ⟨child, isChild_step record.invariant taken child⟩

theorem signalling_scanned (started : (pidfileMachine overflow).start source)
    (path : Path (pidfileMachine overflow) source actions machine) {command : PidfileCommand}
    (here : machine.commands[j]? = some (.signalling command pid)) :
    ∃ uninitialised middle, ScannedAt overflow source actions j uninitialised pid middle ∧
      (Truncated middle j ∧ pid = uninitialised ∨ IsChild middle pid ∧ IsChild machine pid) := by
  have initially : ScanRecord overflow source [] source :=
    ⟨.refl source, machine_initially started, by simp [started.2.2.2]⟩
  have record := path.records (ScanRecord overflow source)
    (fun _ _ _ _ record taken => scanRecord_step record taken) [] initially
  rw [List.nil_append] at record
  exact record.scanned j command pid here

/-- Whatever is interleaved with it, a command signals the child of a launch, or, when it scanned the
file while a launch had opened it and not yet written it, what its local held. -/
theorem command_signalsChild (started : (pidfileMachine overflow).start source)
    (path : Path (pidfileMachine overflow) source actions machine)
    (taken : (pidfileMachine overflow).step machine (.kills j pid signal answer) next) :
    ∃ uninitialised middle, ScannedAt overflow source actions j uninitialised pid middle ∧
      (Truncated middle j ∧ pid = uninitialised ∨ IsChild middle pid) := by
  cases taken with
  | kills here =>
      obtain ⟨uninitialised, middle, scanned, origin⟩ := signalling_scanned started path here
      exact ⟨uninitialised, middle, scanned, origin.imp_right And.left⟩

end Contents

/-! When no pid is given out twice, that child is never the daemon of a launch. -/

def PidfileAction.newPid? : PidfileAction → Option Int32
  | .launches processes => some processes.originalPid
  | .daemonizes _ (.originalForks pid) => some pid
  | .daemonizes _ (.childForks pid) => some pid
  | _ => none

def Launch.pids (launch : Launch) : List Int32 :=
  launch.processes.originalPid ::
    (if launch.processes.child = .unborn then [] else [launch.processes.childPid]) ++
    (if launch.processes.daemon = .unborn then [] else [launch.processes.daemonPid])

def NeverReused (machine : PidfileMachine) (action : PidfileAction) : Prop :=
  ∀ pid ∈ action.newPid?, ∀ launch ∈ machine.launches, pid ∉ launch.pids

instance (machine : PidfileMachine) (action : PidfileAction) : Decidable (NeverReused machine action) :=
  decidable_of_iff ((action.newPid?.all fun pid =>
      machine.launches.all fun launch => !launch.pids.contains pid) = true) (by
    cases given : action.newPid? with
    | none => simp [NeverReused, given]
    | some pid => simp [NeverReused, given])

def Apart (machine : PidfileMachine) : Prop :=
  ∀ launch ∈ machine.launches, ∀ other ∈ machine.launches, launch.processes.child ≠ .unborn →
    other.processes.daemon ≠ .unborn → launch.processes.childPid ≠ other.processes.daemonPid

section Apart

variable {overflow : Overflow} {machine next : PidfileMachine} {action : PidfileAction}

theorem newborn_child {state after : DaemonizeState} {action : DaemonizeAction}
    (taken : DaemonizeStep state action after) (unborn : state.child = .unborn)
    (born : after.child ≠ .unborn) : action = .originalForks after.childPid := by
  cases taken <;> simp_all

theorem newborn_daemon {state after : DaemonizeState} {action : DaemonizeAction}
    (taken : DaemonizeStep state action after) (unborn : state.daemon = .unborn)
    (born : after.daemon ≠ .unborn) : action = .childForks after.daemonPid := by
  cases taken <;> simp_all

theorem child_origin (invariant : MachineInvariant machine)
    (taken : (pidfileMachine overflow).step machine action next) {launch : Launch}
    (member : launch ∈ next.launches) (born : launch.processes.child ≠ .unborn) :
    (∃ old ∈ machine.launches, old.processes.child ≠ .unborn ∧
      old.processes.childPid = launch.processes.childPid) ∨
    ∃ i, action = .daemonizes i (.originalForks launch.processes.childPid) := by
  rcases launches_cases taken with same | ⟨processes, started, longer⟩ |
    ⟨i, old, made, after, handle, here, rfl, steps, set⟩
  · exact Or.inl ⟨launch, same ▸ member, born, rfl⟩
  · rw [longer] at member
    rcases List.mem_append.mp member with inside | new
    · exact Or.inl ⟨launch, inside, born, rfl⟩
    · obtain rfl := List.mem_singleton.mp new
      exact absurd started.2.1 born
  · rw [set] at member
    have oldMember := List.mem_of_getElem? here
    rcases List.mem_or_eq_of_mem_set member with inside | rfl
    · exact Or.inl ⟨launch, inside, born, rfl⟩
    · by_cases unborn : old.processes.child = .unborn
      · exact Or.inr ⟨i, by rw [newborn_child steps unborn born]⟩
      · obtain ⟨-, same⟩ := keepsChild (invariant.launched old oldMember).toPidfileInvariant steps unborn
        exact Or.inl ⟨old, oldMember, unborn, same.symm⟩

theorem daemon_origin (invariant : MachineInvariant machine)
    (taken : (pidfileMachine overflow).step machine action next) {launch : Launch}
    (member : launch ∈ next.launches) (born : launch.processes.daemon ≠ .unborn) :
    (∃ old ∈ machine.launches, old.processes.daemon ≠ .unborn ∧
      old.processes.daemonPid = launch.processes.daemonPid) ∨
    ∃ i, action = .daemonizes i (.childForks launch.processes.daemonPid) := by
  rcases launches_cases taken with same | ⟨processes, started, longer⟩ |
    ⟨i, old, made, after, handle, here, rfl, steps, set⟩
  · exact Or.inl ⟨launch, same ▸ member, born, rfl⟩
  · rw [longer] at member
    rcases List.mem_append.mp member with inside | new
    · exact Or.inl ⟨launch, inside, born, rfl⟩
    · obtain rfl := List.mem_singleton.mp new
      exact absurd started.2.2.1 born
  · rw [set] at member
    have oldMember := List.mem_of_getElem? here
    rcases List.mem_or_eq_of_mem_set member with inside | rfl
    · exact Or.inl ⟨launch, inside, born, rfl⟩
    · by_cases unborn : old.processes.daemon = .unborn
      · exact Or.inr ⟨i, by rw [newborn_daemon steps unborn born]⟩
      · obtain ⟨-, same⟩ :=
          keepsDaemon (invariant.launched old oldMember).toPidfileInvariant steps unborn
        exact Or.inl ⟨old, oldMember, unborn, same.symm⟩

theorem apart_step (invariant : MachineInvariant machine) (apart : Apart machine)
    (fresh : NeverReused machine action)
    (taken : (pidfileMachine overflow).step machine action next) : Apart next := by
  intro launch member other otherMember childBorn daemonBorn same
  rcases child_origin invariant taken member childBorn with ⟨old, inside, born, pid⟩ | ⟨i, rfl⟩
  · rcases daemon_origin invariant taken otherMember daemonBorn with
      ⟨oldOther, otherInside, otherBorn, otherPid⟩ | ⟨i, rfl⟩
    · exact apart old inside oldOther otherInside born otherBorn (by rw [pid, otherPid, same])
    · refine fresh other.processes.daemonPid rfl old inside ?_
      rw [Launch.pids, if_neg born, pid, same]
      simp
  · rcases daemon_origin invariant taken otherMember daemonBorn with
      ⟨oldOther, otherInside, otherBorn, otherPid⟩ | ⟨k, both⟩
    · refine fresh launch.processes.childPid rfl oldOther otherInside ?_
      rw [Launch.pids, if_neg otherBorn, otherPid, same]
      simp
    · simp at both

theorem restrict_apart {source : PidfileMachine} {actions : List PidfileAction}
    (started : (pidfileMachine overflow).start source)
    (path : Path ((pidfileMachine overflow).restrict NeverReused) source actions machine) :
    Apart machine := by
  refine (path.preserves (fun machine => MachineInvariant machine ∧ Apart machine) ?_
    ⟨machine_initially started, fun launch member => ?_⟩).2
  · intro machine action next ⟨invariant, apart⟩ ⟨fresh, taken⟩
    exact ⟨machine_step invariant taken, apart_step invariant apart fresh taken⟩
  · rw [started.2.2.1] at member
    cases member

/-- No interleaving of launches and commands lets a command signal a daemon that is there, also one
that was not yet there when it scanned the file. -/
theorem command_missesDaemons {source : PidfileMachine} {actions : List PidfileAction} {j : Nat}
    {pid signal answer : Int32} (started : (pidfileMachine overflow).start source)
    (path : Path ((pidfileMachine overflow).restrict NeverReused) source actions machine)
    (taken : (pidfileMachine overflow).step machine (.kills j pid signal answer) next) :
    ∃ uninitialised middle, ScannedAt overflow source actions j uninitialised pid middle ∧
      (Truncated middle j ∧ pid = uninitialised ∨
        ∀ launch ∈ machine.launches, launch.processes.daemon ≠ .unborn →
          pid ≠ launch.processes.daemonPid) := by
  have apart := restrict_apart started path
  cases taken with
  | kills here =>
      obtain ⟨uninitialised, middle, scanned, origin⟩ :=
        signalling_scanned started path.ofRestrict here
      refine ⟨uninitialised, middle, scanned, origin.imp_right ?_⟩
      rintro ⟨-, launch, member, born, rfl⟩ other otherMember daemonBorn
      exact apart launch member other otherMember born daemonBorn

end Apart

def emptyMachine : PidfileMachine := ⟨.empty, [], []⟩

def stopActions : List PidfileAction :=
  [.launches daemonizeStart, .daemonizes 0 (.originalForks 101), .daemonizes 0 .opens,
    .daemonizes 0 .prints, .daemonizes 0 .setsid, .invokes .stop, .opens 0, .scans 0 7 101,
    .daemonizes 0 (.childForks 102), .daemonizes 0 .childExits, .daemonizes 0 .settles]

theorem stopActions_path (overflow : Overflow) : ∃ machine : PidfileMachine,
    Path ((pidfileMachine overflow).restrict NeverReused) emptyMachine stopActions machine ∧
      machine.launches = [⟨daemonizeEnd, none⟩] ∧
      machine.commands[0]? = some (.signalling .stop 101) := by
  have path : Path ((pidfileMachine overflow).restrict NeverReused) emptyMachine stopActions _ :=
    .step ⟨by decide, .launches ⟨rfl, rfl, rfl, rfl, by decide⟩⟩ <|
    .step ⟨by decide, .daemonizes rfl (by simp) (by simp)
      (.originalForks rfl ⟨by decide, by decide, by decide⟩)⟩ <|
    .step ⟨by decide, .fopens rfl (.opens rfl)⟩ <|
    .step ⟨by decide, .prints rfl rfl rfl (.prints rfl)⟩ <|
    .step ⟨by decide, .daemonizes rfl (by simp) (by simp) (.setsid rfl)⟩ <|
    .step ⟨by decide, .invokes⟩ <|
    .step ⟨by decide, .opens rfl rfl⟩ <|
    .step ⟨by decide, .scans rfl (readPid_starts 7 101 (List.prefix_refl _))⟩ <|
    .step ⟨by decide, .daemonizes rfl (by simp) (by simp)
      (.childForks rfl ⟨by decide, by decide, by decide⟩)⟩ <|
    .step ⟨by decide, .daemonizes rfl (by simp) (by simp) (.childExits rfl)⟩ <|
    .step ⟨by decide, .daemonizes rfl (by simp) (by simp) (.settles rfl)⟩ <| .refl _
  exact ⟨_, path, rfl, rfl⟩

theorem emptyMachine_started (overflow : Overflow) : (pidfileMachine overflow).start emptyMachine :=
  ⟨rfl, rfl, rfl, rfl⟩

theorem stop_signalsChild : ∃ uninitialised middle,
    ScannedAt (fun _ => none) emptyMachine stopActions 0 uninitialised 101 middle ∧
      (Truncated middle 0 ∧ 101 = uninitialised ∨ IsChild middle 101) := by
  obtain ⟨machine, path, -, here⟩ := stopActions_path fun _ => none
  have taken : (pidfileMachine fun _ => none).step machine (.kills 0 101 _ 0) _ := .kills here
  exact command_signalsChild (emptyMachine_started _) path.ofRestrict taken

theorem stop_missesDaemon : ∃ machine : PidfileMachine, machine.launches = [⟨daemonizeEnd, none⟩] ∧
    ∃ uninitialised middle,
      ScannedAt (fun _ => none) emptyMachine stopActions 0 uninitialised 101 middle ∧
        (Truncated middle 0 ∧ 101 = uninitialised ∨
          ∀ launch ∈ machine.launches, launch.processes.daemon ≠ .unborn →
            101 ≠ launch.processes.daemonPid) := by
  obtain ⟨machine, path, launched, here⟩ := stopActions_path fun _ => none
  have taken : (pidfileMachine fun _ => none).step machine (.kills 0 101 _ 0) _ := .kills here
  exact ⟨machine, launched, command_missesDaemons (emptyMachine_started _) path taken⟩

end BlockchainAuditor
