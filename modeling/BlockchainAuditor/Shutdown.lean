import BlockchainAuditor.AuditorProcess

/-! What becomes of the queued events once `g_running` is 0 and the queue is shut down. -/

namespace BlockchainAuditor

open Transitions

def AuditorAction.byWorker : AuditorAction → Bool
  | .queue (.wakes _) => false
  | .queue action => action.thread = .worker
  | .tests _ => true
  | .posts _ => true
  | _ => false

/-- Each iteration of the worker's loop has one `queue_pop`, and nobody else pops. -/
def AuditorAction.iterates : AuditorAction → Bool
  | .queue (.popReturns _ _) => true
  | _ => false

/-- From here on the worker pops all that is queued, in order, and leaves its loop. -/
structure Drains (client : HttpClient) (size : Int) (state : AuditorState) : Prop where
  iterations : ∀ actions target, Path (auditor client size) state actions target →
    actions.countP AuditorAction.iterates ≤ state.shared.queue.count + 1
  progress : ∀ actions target, Path (auditor client size) state actions target →
    target.worker = .exited ∨ ∃ action next, AuditorAction.byWorker action = true ∧
      (auditor client size).step target action next
  finite : ∃ bound, ∀ actions target, Path (auditor client size) state actions target →
    actions.countP AuditorAction.byWorker ≤ bound
  drained : ∀ actions target, Path (auditor client size) state actions target →
    target.worker = .exited → poppedBy (queueActions actions) = state.shared.queue.contents

def PopsOldest (queue : AsyncQueue AuditEvent) : Prop :=
  ∃ ev after, queuePop queue = some (some ev, after) ∧ queue.contents = ev :: after.contents

variable {client : HttpClient} {size : Int}

theorem popsOldest_iff {queue : AsyncQueue AuditEvent} (ring : RingInvariant queue)
    (nonempty : 0 < queue.count) : PopsOldest queue ↔ queue.shutdown = false := by
  have entered : queuePop queue = some (queuePopResume queue) := by
    rw [queuePop, if_neg (by omega)]
  constructor
  · rintro ⟨ev, after, popped, _⟩
    rw [entered, queuePopResume_eq] at popped
    by_contra closed
    simp only [Bool.not_eq_false] at closed
    simp [closed] at popped
  · intro opened
    refine ⟨queue.buffer queue.head, queue.dequeue, ?_, dequeue_contents ring nonempty⟩
    rw [entered, queuePopResume_eq, if_neg (by simp [opened]; omega)]

theorem closed_step {state next : AuditorState} {action : AuditorAction}
    (closed : state.shared.queue.shutdown = true)
    (taken : (auditor client size).step state action next) :
    next.shared.queue.shutdown = true ∧ next.shared.queue.count = state.shared.queue.count ∧
      poppedBy (queueActions [action]) = [] := by
  have critical : ∀ {action : QueueAction Role AuditEvent} {shared : QueueState Role AuditEvent},
      QueueStep state.shared action shared → shared.queue.shutdown = true ∧
        shared.queue.count = state.shared.queue.count ∧ poppedBy [action] = [] := by
    intro action shared step
    have effect := step.effect
    generalize shared.queue = queue at effect ⊢
    cases effect with
    | accepted opened _ => simp [closed] at opened
    | popTakes opened _ => simp [closed] at opened
    | _ => simp [closed, poppedBy, QueueAction.popped?, queueShutdown]
  cases taken with
  | main _ _ step => exact critical step
  | worker _ _ step => exact critical step
  | _ => exact ⟨closed, rfl, rfl⟩

theorem closed_path {state target : AuditorState} {actions : List AuditorAction}
    (closed : state.shared.queue.shutdown = true)
    (path : Path (auditor client size) state actions target) :
    poppedBy (queueActions actions) = [] := by
  induction path with
  | refl _ => rfl
  | @step source action middle actions target taken _ ih =>
      obtain ⟨stillClosed, _, none⟩ := closed_step closed taken
      have split : poppedBy (queueActions (action :: actions)) =
          poppedBy (queueActions [action]) ++ poppedBy (queueActions actions) := by
        simp only [poppedBy, queueActions, ← List.filterMap_append, List.singleton_append]
      rw [split, none, ih stillClosed, List.append_nil]

structure Quiet (state : AuditorState) : Prop where
  invariant : AuditorInvariant state
  stopped : state.running = false
  closed : state.shared.queue.shutdown = true
  empty : state.shared.queue.count = 0

def workerSteps : WorkerPlace → Nat
  | .exited => 0
  | .counting => 1
  | .testing => 2
  | .delivering _ retries => 2 + retries
  | .popping => 3

def workerIterations : WorkerPlace → Nat
  | .popping => 1
  | _ => 0

theorem running_step {state next : AuditorState} {action : AuditorAction}
    (stopped : state.running = false) (taken : (auditor client size).step state action next) :
    next.running = false := by
  cases taken <;> first | rfl | exact stopped

theorem quiet_step {state next : AuditorState} {action : AuditorAction} (quiet : Quiet state)
    (taken : (auditor client size).step state action next) : Quiet next := by
  obtain ⟨closed, count, _⟩ := closed_step quiet.closed taken
  exact ⟨auditorStep_invariant quiet.invariant taken, running_step quiet.stopped taken, closed,
    count.trans quiet.empty⟩

theorem retriesAfter_lt (rc : Int) {retries : Nat} (positive : 0 < retries) :
    retriesAfter rc retries < retries := by
  unfold retriesAfter
  split <;> omega

theorem workerPosted_steps (client : HttpClient) (network : Network) (ev : AuditEvent)
    {retries : Nat} (positive : 0 < retries) :
    workerSteps (workerPosted client network ev retries) + 1 ≤
        workerSteps (.delivering ev retries) ∧
      workerIterations (workerPosted client network ev retries) ≤
        workerIterations (.delivering ev retries) := by
  have fewer := retriesAfter_lt (httpClientPostEvent client network ev) positive
  simp only [workerPosted]
  split
  · exact ⟨by simp only [workerSteps]; omega, Nat.le_refl _⟩
  · exact ⟨by simp only [workerSteps]; omega, Nat.le_refl _⟩

theorem mainStep_idle {main place : MainPlace} {action : QueueAction Role AuditEvent}
    (byMain : action.thread = Role.main) (allowed : mainAfter main action = some place) :
    AuditorAction.byWorker (.queue action) = false ∧
      AuditorAction.iterates (.queue action) = false := by
  cases action <;> cases main <;>
    simp_all [mainAfter, QueueAction.thread, AuditorAction.byWorker, AuditorAction.iterates]

theorem quiet_descends {state next : AuditorState} {action : AuditorAction} (quiet : Quiet state)
    (taken : (auditor client size).step state action next) :
    workerSteps next.worker + (if action.byWorker then 1 else 0) ≤ workerSteps state.worker ∧
      workerIterations next.worker + (if action.iterates then 1 else 0) ≤
        workerIterations state.worker := by
  cases taken with
  | main byMain allowed _ => simp [mainStep_idle byMain allowed]
  | @worker _ shared _ byWorker allowed critical =>
      have effect := critical.effect
      generalize shared.queue = after at effect
      rcases workerAfter_cases allowed with ⟨_, value, place, rfl, rfl⟩ | ⟨_, _, rfl, _⟩ |
        ⟨_, _, _, rfl, _⟩ | ⟨_, place, rfl, rfl⟩ | ⟨_, rfl, rfl⟩
      · have counted : value = 0 := by
          cases critical with
          | count _ => exact quiet.empty
        simp [counted, place, workerSteps, workerIterations, AuditorAction.iterates,
          AuditorAction.byWorker]
        split <;> simp
      · cases effect with
        | popWaits opened _ => simp [quiet.closed] at opened
      · cases effect with
        | popTakes opened _ => simp [quiet.closed] at opened
      · simp [place, workerSteps, workerIterations, AuditorAction.iterates]
        split <;> simp
      · simp [AuditorAction.byWorker, AuditorAction.iterates]
  | stops _ _ => simp [AuditorAction.byWorker, AuditorAction.iterates]
  | joins _ _ => simp [AuditorAction.byWorker, AuditorAction.iterates]
  | signal => simp [AuditorAction.byWorker, AuditorAction.iterates]
  | tests testing =>
      simp [testing, quiet.stopped, workerSteps, workerIterations, AuditorAction.byWorker,
        AuditorAction.iterates]
  | @posts ev retries network delivering =>
      have steps := workerPosted_steps client network ev (quiet.invariant.retries _ _ delivering)
      simpa [delivering, AuditorAction.byWorker, AuditorAction.iterates] using steps

theorem quiet_progress {state : AuditorState} (quiet : Quiet state) :
    state.worker = .exited ∨ ∃ action next, AuditorAction.byWorker action = true ∧
      (auditor client size).step state action next := by
  have idle := quiet.invariant.workerOutside
  cases worker : state.worker with
  | exited => exact Or.inl rfl
  | testing => exact Or.inr ⟨_, _, rfl, .tests worker⟩
  | delivering ev retries =>
      exact Or.inr ⟨.posts fun _ => .completed 201, _, rfl, .posts worker⟩
  | counting =>
      have outside := idle (by simp [worker])
      exact Or.inr ⟨.queue (.count .worker state.shared.queue.count), _, rfl,
        .worker rfl (by rw [worker]; rfl) (.count outside)⟩
  | popping =>
      have fails : queuePopResume state.shared.queue = (none, state.shared.queue) := by
        rw [queuePopResume_eq, if_pos (Or.inl quiet.closed)]
      have unparked := quiet.invariant.unparked quiet.closed .worker
      have place := quiet.invariant.workerPopping
      have returned : (state.shared.threads .worker = .outside ∧
          queuePop state.shared.queue = some (none, state.shared.queue)) ∨
          (state.shared.threads .worker = .wokenNotEmpty ∧
            queuePopResume state.shared.queue = (none, state.shared.queue)) := by
        cases here : state.shared.threads .worker with
        | outside => exact Or.inl ⟨rfl, by rw [queuePop, if_neg (by simp [quiet.closed]), fails]⟩
        | wokenNotEmpty => exact Or.inr ⟨rfl, fails⟩
        | waitingNotEmpty _ => simp [here, Thread.parked, Thread.waitsNotEmpty] at unparked
        | waitingNotFull _ => simp [here, PoppingPlace] at place
        | wokenNotFull _ => simp [here, PoppingPlace] at place
      exact Or.inr ⟨.queue (.popReturns .worker none), _, rfl,
        .worker rfl (by rw [worker]; rfl) (.popFails returned)⟩

theorem quiet_drains {state : AuditorState} (quiet : Quiet state) : Drains client size state := by
  have kept : ∀ source action next, Quiet source →
      (auditor client size).step source action next → Quiet next :=
    fun _ _ _ before taken => quiet_step before taken
  have bounded := fun {actions : List AuditorAction} {target : AuditorState}
      (path : Path (auditor client size) state actions target) =>
    path.bounded Quiet kept AuditorAction.byWorker (fun source => workerSteps source.worker)
      (fun _ _ _ before taken => (quiet_descends before taken).1) quiet
  have turns := fun {actions : List AuditorAction} {target : AuditorState}
      (path : Path (auditor client size) state actions target) =>
    path.bounded Quiet kept AuditorAction.iterates (fun source => workerIterations source.worker)
      (fun _ _ _ before taken => (quiet_descends before taken).2) quiet
  refine ⟨?_, ?_, ⟨workerSteps state.worker, ?_⟩, ?_⟩
  · intro actions target path
    have atMost := turns path
    have one : workerIterations state.worker ≤ 1 := by cases state.worker <;> simp [workerIterations]
    omega
  · intro actions target path
    exact quiet_progress (path.preserves Quiet kept quiet)
  · intro actions target path
    have atMost := bounded path
    omega
  · intro actions target path _
    have nothing : state.shared.queue.contents = [] := by
      rw [← List.length_eq_zero_iff, contents_length, quiet.empty]
    rw [closed_path quiet.closed path, nothing]

/-- What is in the queue when it is shut down stays there, and the worker never leaves. -/
theorem drains_empty {state : AuditorState} (closed : state.shared.queue.shutdown = true)
    (drains : Drains client size state) : state.shared.queue.count = 0 := by
  obtain ⟨bound, finite⟩ := drains.finite
  obtain ⟨actions, target, path, exited⟩ := System.reaches drains.progress finite
  have popped := drains.drained actions target path exited
  rw [closed_path closed path] at popped
  rw [← contents_length, ← popped, List.length_nil]

def ClosesEmpty (state : AuditorState) (action : AuditorAction) : Prop :=
  ∀ thread, action = .queue (.shutdown thread) → state.shared.queue.count = 0

theorem closing_step {state next : AuditorState} {action : AuditorAction}
    (taken : (auditor client size).step state action next)
    (closed : next.shared.queue.shutdown = true) :
    state.shared.queue.shutdown = true ∨ ((∃ thread, action = .queue (.shutdown thread)) ∧
      next.shared.queue.count = state.shared.queue.count) := by
  have critical : ∀ {action : QueueAction Role AuditEvent} {shared : QueueState Role AuditEvent},
      QueueStep state.shared action shared → shared.queue.shutdown = true →
        state.shared.queue.shutdown = true ∨
          ((∃ thread, AuditorAction.queue action = .queue (.shutdown thread)) ∧
            shared.queue.count = state.shared.queue.count) := by
    intro action shared step closed
    rcases step.effect.closes closed with before | ⟨thread, rfl⟩
    · exact Or.inl before
    · cases step with
      | shutdown _ => exact Or.inr ⟨⟨thread, rfl⟩, rfl⟩
  cases taken with
  | main _ _ step => exact critical step closed
  | worker _ _ step => exact critical step closed
  | _ => exact Or.inl closed

theorem closesEmpty_count {state : AuditorState}
    (reachable : ((auditor client size).restrict ClosesEmpty).Reachable state)
    (closed : state.shared.queue.shutdown = true) : state.shared.queue.count = 0 := by
  refine reachable.invariant (fun state => state.shared.queue.shutdown = true →
    state.shared.queue.count = 0) ?_ ?_ closed
  · rintro source ⟨⟨⟨memory, initialised⟩, _⟩, _⟩ _
    exact (queueInit_ring initialised).2.1
  · rintro state action next before ⟨allowed, taken⟩ closed
    rcases closing_step taken closed with wasClosed | ⟨⟨thread, isShutdown⟩, kept⟩
    · rw [(closed_step wasClosed taken).2.1, before wasClosed]
    · rw [kept, allowed thread isShutdown]

theorem shutdown_drains_iff :
    (∀ state, (auditor client size).Reachable state → state.running = false →
      state.shared.queue.shutdown = true →
        (Drains client size state ↔ state.shared.queue.count = 0)) ∧
    (∀ state, (auditor client size).Reachable state → 0 < state.shared.queue.count →
      (PopsOldest state.shared.queue ↔ state.shared.queue.shutdown = false)) ∧
    (∀ state, ((auditor client size).restrict ClosesEmpty).Reachable state →
      (state.running = false → state.shared.queue.shutdown = true → Drains client size state) ∧
      (0 < state.shared.queue.count → PopsOldest state.shared.queue)) := by
  have exact : ∀ state, (auditor client size).Reachable state → state.running = false →
      state.shared.queue.shutdown = true →
        (Drains client size state ↔ state.shared.queue.count = 0) := by
    intro state reachable stopped closed
    exact ⟨drains_empty closed, fun empty =>
      quiet_drains ⟨auditor_invariant reachable, stopped, closed, empty⟩⟩
  have pops : ∀ state, (auditor client size).Reachable state → 0 < state.shared.queue.count →
      (PopsOldest state.shared.queue ↔ state.shared.queue.shutdown = false) :=
    fun state reachable nonempty => popsOldest_iff (auditor_invariant reachable).ring nonempty
  refine ⟨exact, pops, fun state reachable => ⟨fun stopped closed => ?_, fun nonempty => ?_⟩⟩
  · exact (exact state reachable.ofRestrict stopped closed).mpr
      (closesEmpty_count reachable closed)
  · refine (pops state reachable.ofRestrict nonempty).mpr ?_
    by_contra closed
    have empty := closesEmpty_count reachable (by simpa using closed)
    omega

def freshQueue : AsyncQueue AuditEvent where
  buffer _ := .zero
  head := 0
  tail := 0
  size := 1
  count := 0
  shutdown := false

def freshState : AuditorState where
  shared := { queue := freshQueue, threads := fun _ => .outside }
  running := true
  main := .producing
  worker := .testing

theorem freshState_starts : (auditor client 1).start freshState :=
  ⟨⟨⟨fun _ => .zero, rfl⟩, fun _ => rfl⟩, rfl, rfl, rfl⟩

def emptyClosed : AuditorState where
  shared := { queue := queueShutdown freshQueue, threads := broadcast fun _ => .outside }
  running := false
  main := .closed
  worker := .testing

def filledQueue : AsyncQueue AuditEvent := freshQueue.enqueue .zero

def filledThreads : Role → Thread AuditEvent := setThread (fun _ => .outside) .main .outside

def filledClosed : AuditorState where
  shared := { queue := queueShutdown filledQueue, threads := broadcast filledThreads }
  running := false
  main := .closed
  worker := .testing

theorem emptyClosed_reachable : (auditor client 1).Reachable emptyClosed :=
  ⟨freshState, [.stops, .queue (.shutdown .main)], freshState_starts,
    .step (.stops rfl rfl) (.single (.main rfl rfl (.shutdown rfl)))⟩

theorem filledThreads_outside (role : Role) : filledThreads role = .outside := by
  cases role <;> rfl

theorem filledClosed_reachable : (auditor client 1).Reachable filledClosed := by
  refine ⟨freshState, [.queue (.pushReturns .main .zero 0), .stops, .queue (.shutdown .main)],
    freshState_starts, .step (.main rfl rfl (.pushAccepted (Or.inl rfl) rfl ?_))
      (.step (.stops rfl (filledThreads_outside .main))
        (.single (.main rfl rfl (.shutdown (filledThreads_outside .main)))))⟩
  exact Or.inr ⟨fun role => congrArg Thread.waitsNotEmpty (filledThreads_outside role), rfl⟩

theorem emptyClosed_drains : Drains ⟨true, .zero⟩ 1 emptyClosed :=
  (shutdown_drains_iff.1 emptyClosed emptyClosed_reachable rfl rfl).mpr rfl

theorem filledClosed_stuck : filledClosed.running = false ∧
    filledClosed.shared.queue.shutdown = true ∧ 0 < filledClosed.shared.queue.count ∧
    (auditor ⟨true, .zero⟩ 1).Reachable filledClosed ∧ ¬Drains ⟨true, .zero⟩ 1 filledClosed ∧
    ¬PopsOldest filledClosed.shared.queue := by
  have nonempty : 0 < filledClosed.shared.queue.count := by decide
  refine ⟨rfl, rfl, nonempty, filledClosed_reachable, fun drains => ?_, fun pops => ?_⟩
  · rw [drains_empty rfl drains] at nonempty
    omega
  · have reachable : (auditor ⟨true, .zero⟩ 1).Reachable filledClosed := filledClosed_reachable
    have opened := (popsOldest_iff (auditor_invariant reachable).ring nonempty).mp pops
    cases opened

end BlockchainAuditor
