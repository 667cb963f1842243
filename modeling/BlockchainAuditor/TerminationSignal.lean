import BlockchainAuditor.Shutdown

/-! `cmd_daemon` and the signal handler: the loops of
`proc_monitor_start` and `audit_monitor_start`, which test a flag of their own, within the
process that `AuditorProcess` describes. -/

namespace BlockchainAuditor

open Transitions

/-- `opening` is the call in front of the loop, `calling` the one that each iteration starts
with: `opendir` in one mode, `audit_open` and `audit_get_reply` in the other. -/
inductive MonitorPlace
  | preparing
  | opening
  | testing
  | calling
  | handling
  | returned
  deriving DecidableEq

inductive CallResult
  | succeeded
  | interrupted
  | failed
  deriving DecidableEq

/-- `monitorRunning` is `pm->running` or `am->running`. -/
structure CmdDaemonState where
  auditor : AuditorState
  monitorRunning : Bool
  monitor : MonitorPlace

def CallResult.leadsTo (useAudit : Bool) : CallResult → MonitorPlace
  | .succeeded => .handling
  -- only the audit mode looks at `errno`
  | .interrupted => if useAudit then .testing else .returned
  | .failed => .returned

/-- The callback runs while an entry or a record is handled, and the end of `cmd_daemon` when
the monitor has returned. -/
def MonitorPlace.permits (monitor : MonitorPlace) (main : MainPlace) : AuditorAction → Prop
  | .queue action => action.thread = Role.main → main = .producing → monitor = .handling
  | .stops => monitor = .returned
  | _ => True

inductive CmdDaemonAction
  | auditor (action : AuditorAction)
  | starts
  | opens (succeeds : Bool)
  | begins
  | leaves
  | calls (result : CallResult)
  | finishes

inductive CmdDaemonStep (client : HttpClient) (useAudit : Bool) :
    CmdDaemonState → CmdDaemonAction → CmdDaemonState → Prop
  | auditor {state action auditor} : state.monitor.permits state.auditor.main action →
      AuditorStep client state.auditor action auditor →
      CmdDaemonStep client useAudit state (.auditor action) { state with auditor }
  | starts {state} : state.monitor = .preparing →
      CmdDaemonStep client useAudit state .starts
        { state with monitorRunning := true, monitor := .opening }
  | opens {state succeeds} : state.monitor = .opening →
      CmdDaemonStep client useAudit state (.opens succeeds)
        { state with monitor := if succeeds then .testing else .returned }
  | begins {state} : state.monitor = .testing → state.monitorRunning = true →
      CmdDaemonStep client useAudit state .begins { state with monitor := .calling }
  | leaves {state} : state.monitor = .testing → state.monitorRunning = false →
      CmdDaemonStep client useAudit state .leaves { state with monitor := .returned }
  | calls {state result} : state.monitor = .calling →
      CmdDaemonStep client useAudit state (.calls result)
        { state with monitor := result.leadsTo useAudit }
  | finishes {state} : state.monitor = .handling →
      state.auditor.shared.threads .main = .outside →
      CmdDaemonStep client useAudit state .finishes { state with monitor := .testing }

def cmdDaemon (client : HttpClient) (size : Int) (useAudit : Bool) :
    System CmdDaemonState CmdDaemonAction where
  start state := (auditor client size).start state.auditor ∧ state.monitorRunning = false ∧
    state.monitor = .preparing
  step := CmdDaemonStep client useAudit

variable {client : HttpClient} {size : Int} {useAudit : Bool}

def daemonRefines (client : HttpClient) (size : Int) (useAudit : Bool) :
    Simulation (cmdDaemon client size useAudit) (auditor client size) where
  related state image := image = state.auditor
  observe
    | .auditor action => [action]
    | _ => []
  initially state started := ⟨state.auditor, started.1, rfl⟩
  replays state image action next related taken := by
    subst related
    cases taken with
    | auditor _ critical => exact ⟨_, .single critical, rfl⟩
    | _ => exact ⟨_, .refl _, rfl⟩

structure MonitorInvariant (state : CmdDaemonState) : Prop where
  auditor : AuditorInvariant state.auditor
  producing : state.monitor ≠ .returned → state.auditor.main = .producing
  outside : state.monitor ≠ .handling → state.auditor.shared.threads .main = .outside
  running : state.monitor ≠ .preparing → state.monitorRunning = true

theorem permitted_producing {state next : AuditorState} {action : AuditorAction}
    {monitor : MonitorPlace} (permitted : monitor.permits state.main action)
    (inside : monitor ≠ .returned) (producing : state.main = .producing)
    (taken : AuditorStep client state action next) : next.main = .producing := by
  cases taken with
  | main _ allowed _ =>
      rcases mainAfter_cases allowed with ⟨_, rfl, _⟩ | ⟨stopped, _⟩ | ⟨rfl, _⟩
      · rfl
      · simp [producing] at stopped
      · exact producing
  | stops _ _ => exact absurd permitted inside
  | joins closed _ => simp [producing] at closed
  | _ => exact producing

theorem permitted_outside {state next : AuditorState} {action : AuditorAction}
    {monitor : MonitorPlace} (permitted : monitor.permits state.main action)
    (elsewhere : monitor ≠ .handling) (invariant : AuditorInvariant state)
    (outside : state.shared.threads .main = .outside)
    (taken : (auditor client size).step state action next) :
    next.shared.threads .main = .outside := by
  have invariantAfter := auditorStep_invariant invariant taken
  cases taken with
  | main byMain allowed _ =>
      apply invariantAfter.mainOutside
      have done : state.main ≠ .producing :=
        fun producing => elsewhere (permitted byMain producing)
      rcases mainAfter_cases allowed with ⟨producing, _⟩ | ⟨_, rfl, _⟩ | ⟨rfl, _⟩
      · exact absurd producing done
      · simp
      · exact done
  | worker byWorker _ critical =>
      apply critical.outside _ outside
      rw [byWorker]
      decide
  | _ => exact outside

variable {state next : CmdDaemonState} {action : CmdDaemonAction}

theorem monitor_initially (started : (cmdDaemon client size useAudit).start state) :
    MonitorInvariant state := by
  obtain ⟨auditorStarts, _, preparing⟩ := started
  refine ⟨auditor_initially auditorStarts, ?_, ?_, ?_⟩
  · intro _
    exact auditorStarts.2.2.1
  · intro _
    exact auditorStarts.1.2 .main
  · intro started
    exact absurd preparing started

theorem MonitorInvariant.moves (invariant : MonitorInvariant state) (place : MonitorPlace)
    (inside : state.monitor ≠ .returned) (started : state.monitor ≠ .preparing)
    (outside : state.auditor.shared.threads .main = .outside) :
    MonitorInvariant { state with monitor := place } where
  auditor := invariant.auditor
  producing _ := invariant.producing inside
  outside _ := outside
  running _ := invariant.running started

theorem cmdDaemonStep_invariant (invariant : MonitorInvariant state)
    (taken : (cmdDaemon client size useAudit).step state action next) : MonitorInvariant next := by
  cases taken with
  | @auditor action after permitted critical =>
      have step : (Transitions.System.step (auditor client size)) state.auditor action after := critical
      exact {
        auditor := auditorStep_invariant invariant.auditor step
        producing := fun inside =>
          permitted_producing permitted inside (invariant.producing inside) critical
        outside := fun elsewhere =>
          permitted_outside permitted elsewhere invariant.auditor (invariant.outside elsewhere) step
        running := invariant.running }
  | starts preparing =>
      exact { invariant with
        producing := fun _ => invariant.producing (by simp [preparing])
        outside := fun _ => invariant.outside (by simp [preparing])
        running := fun _ => rfl }
  | opens place | calls place | begins place _ | leaves place _ =>
      apply invariant.moves
      · simp [place]
      · simp [place]
      · exact invariant.outside (by simp [place])
  | finishes handling outside =>
      exact invariant.moves _ (by simp [handling]) (by simp [handling]) outside

/-- A signal is handled when the monitor has returned, or in front of a call; and once one was
handled, such a call ends the loop. -/
def EndsTheLoop (useAudit : Bool) (state : CmdDaemonState) : CmdDaemonAction → Prop
  | .auditor .signal => state.monitor ≠ .testing ∧ state.monitor ≠ .handling
  | .opens succeeds => state.auditor.running = true ∨ succeeds = false
  | .calls result => state.auditor.running = true ∨ result.leadsTo useAudit = .returned
  | _ => True

def CmdDaemonAction.byMain : CmdDaemonAction → Bool
  | .auditor (.queue (.wakes _)) => false
  | .auditor (.queue action) => action.thread = .main
  | .auditor .stops => true
  | .auditor .joins => true
  | .auditor _ => false
  | _ => true

def Joining (state : CmdDaemonState) : Prop :=
  state.auditor.main = .closed ∨ state.auditor.main = .joined

/-- From here on the loop starts no iteration, and a few steps of the main thread, which is
never stuck, lead it to `pthread_join`. -/
structure Stops (system : System CmdDaemonState CmdDaemonAction) (state : CmdDaemonState) :
    Prop where
  noIteration : ∀ actions target, Path system state actions target →
    CmdDaemonAction.begins ∉ actions
  progress : ∀ actions target, Path system state actions target →
    Joining target ∨ ∃ action next, CmdDaemonAction.byMain action = true ∧
      system.step target action next
  finite : ∃ bound, ∀ actions target, Path system state actions target →
    actions.countP CmdDaemonAction.byMain ≤ bound

structure Obedient (state : CmdDaemonState) : Prop where
  invariant : MonitorInvariant state
  stopped : state.auditor.running = false → state.monitor ≠ .testing ∧ state.monitor ≠ .handling

theorem obedient_step (obedient : Obedient state)
    (taken : ((cmdDaemon client size useAudit).restrict (EndsTheLoop useAudit)).step
      state action next) : Obedient next := by
  obtain ⟨allowed, taken⟩ := taken
  refine ⟨cmdDaemonStep_invariant obedient.invariant taken, ?_⟩
  intro stopped
  cases taken with
  | auditor permitted critical =>
      cases critical with
      | signal => exact allowed
      | stops _ _ =>
          have returned : state.monitor = .returned := permitted
          simp [returned]
      | _ => exact obedient.stopped stopped
  | starts _ => simp
  | opens _ =>
      rcases allowed with running | fails
      · simp [running] at stopped
      · simp [fails]
  | calls _ =>
      rcases allowed with running | returns
      · simp [running] at stopped
      · simp [returns]
  | begins testing _ => exact absurd testing (obedient.stopped stopped).1
  | leaves _ _ => simp
  | finishes handling _ => exact absurd handling (obedient.stopped stopped).2

theorem obedient_initially (started : (cmdDaemon client size useAudit).start state) :
    Obedient state := by
  refine ⟨monitor_initially started, ?_⟩
  obtain ⟨_, _, preparing⟩ := started
  simp [preparing]

theorem stopped_step (stopped : state.auditor.running = false)
    (taken : (cmdDaemon client size useAudit).step state action next) :
    next.auditor.running = false := by
  cases taken with
  | @auditor action after _ critical =>
      have step : (auditor client size).step state.auditor action after := critical
      exact running_step stopped step
  | _ => exact stopped

structure Stopping (state : CmdDaemonState) : Prop where
  obedient : Obedient state
  stopped : state.auditor.running = false

theorem stopping_step (stopping : Stopping state)
    (taken : ((cmdDaemon client size useAudit).restrict (EndsTheLoop useAudit)).step
      state action next) : Stopping next :=
  ⟨obedient_step stopping.obedient taken, stopped_step stopping.stopped taken.2⟩

def mainSteps (main : MainPlace) : MonitorPlace → Nat
  | .preparing => 5
  | .opening => 4
  | .calling => 4
  | .testing => 0
  | .handling => 0
  | .returned =>
    match main with
    | .producing => 3
    | .stopped => 2
    | .closed => 1
    | .joined => 0

theorem byMain_worker {action : QueueAction Role AuditEvent}
    (byWorker : action.thread = Role.worker) :
    CmdDaemonAction.byMain (.auditor (.queue action)) = false := by
  cases action <;> simp_all [CmdDaemonAction.byMain, QueueAction.thread]

theorem MonitorInvariant.returned (invariant : MonitorInvariant state)
    (done : state.auditor.main ≠ .producing) : state.monitor = .returned := by
  by_contra inside
  exact done (invariant.producing inside)

theorem stopping_descends (stopping : Stopping state)
    (taken : ((cmdDaemon client size useAudit).restrict (EndsTheLoop useAudit)).step
      state action next) :
    mainSteps next.auditor.main next.monitor + (if action.byMain then 1 else 0) ≤
      mainSteps state.auditor.main state.monitor := by
  obtain ⟨allowed, taken⟩ := taken
  have outsideLoop := stopping.obedient.stopped stopping.stopped
  have producing := stopping.obedient.invariant.producing
  cases taken with
  | auditor permitted critical =>
      have returned := stopping.obedient.invariant.returned
      cases critical with
      | main byMain after _ =>
          rcases mainAfter_cases after with ⟨producing, _⟩ | ⟨stopped, rfl, _⟩ | ⟨rfl, _, rfl⟩
          · exact absurd (permitted byMain producing) outsideLoop.2
          · have gone := returned (by simp [stopped])
            rw [gone, stopped]
            split <;> simp [mainSteps]
          · exact Nat.le_refl _
      | worker byWorker _ _ =>
          rw [byMain_worker byWorker]
          exact Nat.le_refl _
      | stops main _ =>
          have gone : state.monitor = .returned := permitted
          rw [gone, main]
          exact Nat.le_refl 3
      | joins closed _ =>
          rw [returned (by simp [closed]), closed]
          exact Nat.le_refl 1
      | _ => exact Nat.le_refl _
  | starts preparing => simp [preparing, mainSteps, CmdDaemonAction.byMain]
  | opens opening =>
      rcases allowed with running | fails
      · simp [stopping.stopped] at running
      · simp [opening, fails, mainSteps, CmdDaemonAction.byMain, producing]
  | calls calling =>
      rcases allowed with running | returns
      · simp [stopping.stopped] at running
      · simp [calling, returns, mainSteps, CmdDaemonAction.byMain, producing]
  | begins testing _ => exact absurd testing outsideLoop.1
  | leaves testing _ => exact absurd testing outsideLoop.1
  | finishes handling _ => exact absurd handling outsideLoop.2

theorem stopping_progress (stopping : Stopping state) : Joining state ∨ ∃ action next,
    CmdDaemonAction.byMain action = true ∧
      ((cmdDaemon client size useAudit).restrict (EndsTheLoop useAudit)).step state action next := by
  have outsideLoop := stopping.obedient.stopped stopping.stopped
  have invariant := stopping.obedient.invariant
  cases place : state.monitor with
  | preparing => exact Or.inr ⟨.starts, _, rfl, trivial, .starts place⟩
  | opening => exact Or.inr ⟨.opens false, _, rfl, Or.inr rfl, .opens place⟩
  | calling => exact Or.inr ⟨.calls .failed, _, rfl, Or.inr rfl, .calls place⟩
  | testing => exact absurd place outsideLoop.1
  | handling => exact absurd place outsideLoop.2
  | returned =>
      have outside := invariant.outside (by simp [place])
      cases main : state.auditor.main with
      | producing =>
          exact Or.inr ⟨.auditor .stops, _, rfl, trivial, .auditor place (.stops main outside)⟩
      | stopped =>
          refine Or.inr ⟨.auditor (.queue (.shutdown .main)), _, rfl, trivial, .auditor ?_
            (.main rfl (by rw [main]; rfl) (.shutdown outside))⟩
          intro _ producing
          simp [main] at producing
      | closed => exact Or.inl (Or.inl main)
      | joined => exact Or.inl (Or.inr main)

theorem stopping_path {target : CmdDaemonState} {actions : List CmdDaemonAction}
    (path : Path ((cmdDaemon client size useAudit).restrict (EndsTheLoop useAudit)) state actions
      target) (stopping : Stopping state) : Stopping target ∧ CmdDaemonAction.begins ∉ actions := by
  induction path with
  | refl state => exact ⟨stopping, List.not_mem_nil⟩
  | step taken _ ih =>
      obtain ⟨atTarget, later⟩ := ih (stopping_step stopping taken)
      refine ⟨atTarget, ?_⟩
      rw [List.mem_cons, not_or]
      refine ⟨?_, later⟩
      rintro rfl
      cases taken.2 with
      | begins testing _ => exact (stopping.obedient.stopped stopping.stopped).1 testing

theorem stopping_stops (stopping : Stopping state) :
    Stops ((cmdDaemon client size useAudit).restrict (EndsTheLoop useAudit)) state where
  noIteration _ _ path := (stopping_path path stopping).2
  progress _ _ path := stopping_progress (stopping_path path stopping).1
  finite := by
    refine ⟨mainSteps state.auditor.main state.monitor, fun actions target path => ?_⟩
    have bound := path.bounded Stopping (fun _ _ _ before taken => stopping_step before taken)
      CmdDaemonAction.byMain (fun reached => mainSteps reached.auditor.main reached.monitor)
      (fun _ _ _ before taken => stopping_descends before taken) stopping
    omega

structure Looping (state : CmdDaemonState) : Prop where
  inside : state.monitor = .testing ∨ state.monitor = .handling
  running : state.monitorRunning = true
  producing : state.auditor.main = .producing

theorem looping_step (looping : Looping state) (continues : action ≠ .begins)
    (taken : (cmdDaemon client size useAudit).step state action next) : Looping next := by
  have inside := looping.inside
  have running := looping.running
  cases taken with
  | auditor permitted critical =>
      refine ⟨inside, running, permitted_producing permitted ?_ looping.producing critical⟩
      rintro returned
      simp [returned] at inside
  | begins _ _ => exact absurd rfl continues
  | leaves _ stopped => simp [stopped] at running
  | finishes _ _ => exact ⟨Or.inl rfl, running, looping.producing⟩
  | starts place | opens place | calls place => simp [place] at inside

theorem looping_path {target : CmdDaemonState} {actions : List CmdDaemonAction}
    (path : Path (cmdDaemon client size useAudit) state actions target) (looping : Looping state)
    (noIteration : CmdDaemonAction.begins ∉ actions) : Looping target := by
  induction path with
  | refl _ => exact looping
  | step taken _ ih =>
      rw [List.mem_cons, not_or] at noIteration
      obtain ⟨different, later⟩ := noIteration
      exact ih (looping_step looping (Ne.symm different) taken) later

theorem looping_unstopped (looping : Looping state) :
    ¬Stops (cmdDaemon client size useAudit) state := by
  intro stops
  obtain ⟨bound, finite⟩ := stops.finite
  obtain ⟨actions, target, path, joining⟩ := System.reaches stops.progress finite
  have atTarget := looping_path path looping (stops.noIteration actions target path)
  rcases joining with closed | joined
  · simp [atTarget.producing] at closed
  · simp [atTarget.producing] at joined

theorem disobeyed_loops (invariant : MonitorInvariant state)
    (taken : (cmdDaemon client size useAudit).step state action next)
    (disobeyed : ¬EndsTheLoop useAudit state action) :
    next.auditor.running = false ∧ Looping next := by
  have producing := invariant.producing
  have running := invariant.running
  cases taken with
  | auditor permitted critical =>
      cases critical with
      | signal =>
          have inside : state.monitor = .testing ∨ state.monitor = .handling := by
            by_contra elsewhere
            exact disobeyed (not_or.mp elsewhere)
          refine ⟨rfl, inside, running ?_, producing ?_⟩
          · rintro preparing
            simp [preparing] at inside
          · rintro returned
            simp [returned] at inside
      | _ => exact absurd trivial disobeyed
  | opens opening =>
      obtain ⟨stopped, succeeds⟩ := not_or.mp disobeyed
      refine ⟨by simpa using stopped, Or.inl ?_, running (by simp [opening]),
        producing (by simp [opening])⟩
      simp [succeeds]
  | @calls result calling =>
      obtain ⟨stopped, stays⟩ := not_or.mp disobeyed
      refine ⟨by simpa using stopped, ?_, running (by simp [calling]), producing (by simp [calling])⟩
      cases result with
      | succeeded => exact Or.inr rfl
      | interrupted =>
          cases useAudit with
          | true => exact Or.inl rfl
          | false => exact absurd rfl stays
      | failed => exact absurd rfl stays
  | _ => exact absurd trivial disobeyed

theorem signal_stops_iff (client : HttpClient) (size : Int) (useAudit : Bool) :
    (∀ state, ((cmdDaemon client size useAudit).restrict (EndsTheLoop useAudit)).Reachable state →
      state.auditor.running = false →
        Stops ((cmdDaemon client size useAudit).restrict (EndsTheLoop useAudit)) state) ∧
    (∀ state action next, (cmdDaemon client size useAudit).Reachable state →
      (cmdDaemon client size useAudit).step state action next → ¬EndsTheLoop useAudit state action →
        next.auditor.running = false ∧ ¬Stops (cmdDaemon client size useAudit) next) := by
  constructor
  · intro state reachable stopped
    have initially : ∀ source, (cmdDaemon client size useAudit).start source → Obedient source :=
      fun _ started => obedient_initially started
    have obedient := reachable.invariant Obedient initially
      fun _ _ _ before taken => obedient_step before taken
    exact stopping_stops ⟨obedient, stopped⟩
  · intro state action next reachable taken disobeyed
    have invariant := reachable.invariant MonitorInvariant (fun _ started => monitor_initially started)
      fun _ _ _ before taken => cmdDaemonStep_invariant before taken
    obtain ⟨stopped, looping⟩ := disobeyed_loops invariant taken disobeyed
    exact ⟨stopped, looping_unstopped looping⟩

def freshDaemon : CmdDaemonState where
  auditor := freshState
  monitorRunning := false
  monitor := .preparing

theorem freshDaemon_starts : (cmdDaemon client 1 useAudit).start freshDaemon :=
  ⟨freshState_starts, rfl, rfl⟩

def signalledEarly : CmdDaemonState where
  auditor := { freshState with running := false }
  monitorRunning := true
  monitor := .opening

def signalledInside : CmdDaemonState where
  auditor := { freshState with running := false }
  monitorRunning := true
  monitor := .handling

theorem signalledEarly_reachable :
    ((cmdDaemon client 1 useAudit).restrict (EndsTheLoop useAudit)).Reachable signalledEarly := by
  have started : (cmdDaemon client 1 useAudit).start freshDaemon := freshDaemon_starts
  refine ⟨freshDaemon, [.starts, .auditor .signal], started, ?_⟩
  exact .step ⟨trivial, .starts rfl⟩ (.single ⟨⟨by decide, by decide⟩, .auditor trivial .signal⟩)

theorem signalledEarly_stops :
    Stops ((cmdDaemon ⟨true, .zero⟩ 1 true).restrict (EndsTheLoop true)) signalledEarly :=
  (signal_stops_iff ⟨true, .zero⟩ 1 true).1 signalledEarly signalledEarly_reachable rfl

theorem signalledInside_reachable : (cmdDaemon client 1 useAudit).Reachable signalledInside := by
  refine ⟨freshDaemon, [.starts, .opens true, .begins, .calls .succeeded, .auditor .signal],
    freshDaemon_starts, ?_⟩
  exact .step (.starts rfl) (.step (.opens rfl) (.step (.begins rfl rfl) (.step (.calls rfl)
    (.single (.auditor trivial .signal)))))

theorem signalledInside_iterates : ∃ target,
    Path (cmdDaemon client 1 useAudit) signalledInside [.finishes, .begins] target :=
  ⟨_, .step (.finishes rfl rfl) (.single (.begins rfl rfl))⟩

theorem signalledInside_unstopped (useAudit : Bool) :
    ¬∀ state, (cmdDaemon ⟨true, .zero⟩ 1 useAudit).Reachable state → state.auditor.running = false →
      Stops (cmdDaemon ⟨true, .zero⟩ 1 useAudit) state := by
  intro stops
  obtain ⟨target, path⟩ := signalledInside_iterates
  exact (stops signalledInside signalledInside_reachable rfl).noIteration _ target path (by simp)

theorem signal_unnoticed :
    (¬∀ state, (cmdDaemon ⟨true, .zero⟩ 1 false).Reachable state → state.auditor.running = false →
      Stops (cmdDaemon ⟨true, .zero⟩ 1 false) state) ∧
    ¬∀ state, (cmdDaemon ⟨true, .zero⟩ 1 true).Reachable state → state.auditor.running = false →
      Stops (cmdDaemon ⟨true, .zero⟩ 1 true) state :=
  ⟨signalledInside_unstopped false, signalledInside_unstopped true⟩

end BlockchainAuditor
