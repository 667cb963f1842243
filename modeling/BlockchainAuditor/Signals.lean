import BlockchainAuditor.Shutdown

/-! The signal handler clears the flag that keeps the worker alive, and the producer
does not look at it. -/

namespace BlockchainAuditor

open Transitions

/-- The consumer outlives the producer, and what was accepted is delivered. -/
structure Outlives (state : AuditorState) : Prop where
  producing : ¬(state.worker = .exited ∧ state.shared.queue.shutdown = false ∧
    state.main = .producing)
  joined : state.main = .joined → state.shared.queue.contents = []
  unblocked : ¬(state.worker = .exited ∧ (state.shared.threads .main).waitsNotFull = true)

def SignalsLate (state : AuditorState) (action : AuditorAction) : Prop :=
  action = .signal → state.main ≠ .producing

variable {client : HttpClient} {size : Int}

structure LateInvariant (state : AuditorState) : Prop where
  invariant : AuditorInvariant state
  running : state.running = false → state.main ≠ .producing
  exited : state.worker = .exited → state.shared.queue.count = 0

theorem notProducing_empty {state next : AuditorState} {action : AuditorAction}
    (done : state.main ≠ .producing) (empty : state.shared.queue.count = 0)
    (taken : (auditor client size).step state action next) : next.shared.queue.count = 0 := by
  cases taken with
  | @main action shared _ byMain allowed critical =>
      have effect := critical.effect
      generalize shared.queue = after at effect ⊢
      rcases mainAfter_cases allowed with ⟨producing, _⟩ | ⟨_, _, _, rfl⟩ | ⟨_, _, rfl⟩
      · exact absurd producing done
      · cases effect with
        | shutdown => exact empty
      · cases effect with
        | wakes => exact empty
  | @worker action shared _ byWorker allowed critical =>
      have effect := critical.effect
      generalize shared.queue = after at effect ⊢
      cases effect with
      | accepted _ _ => simp [workerAfter] at allowed
      | popTakes _ nonempty => omega
      | _ => exact empty
  | _ => exact empty

theorem late_running {state next : AuditorState} {action : AuditorAction}
    (late : LateInvariant state) (allowed : SignalsLate state action)
    (taken : (auditor client size).step state action next) (stopped : next.running = false) :
    next.main ≠ .producing := by
  cases taken with
  | main _ after _ =>
      rcases mainAfter_cases after with ⟨producing, _⟩ | ⟨_, rfl, _⟩ | ⟨rfl, _⟩
      · exact absurd producing (late.running stopped)
      · simp
      · exact late.running stopped
  | worker _ _ _ => exact late.running stopped
  | stops _ _ => simp
  | joins _ _ => simp
  | signal => exact allowed rfl
  | tests _ => exact late.running stopped
  | posts _ => exact late.running stopped

theorem exit_empty {state next : AuditorState} {action : AuditorAction}
    (inside : state.worker ≠ .exited) (taken : (auditor client size).step state action next)
    (exited : next.worker = .exited) : next.shared.queue.count = 0 := by
  cases taken with
  | @worker action shared _ _ allowed critical =>
      rcases workerAfter_cases allowed with ⟨_, value, _, rfl, rfl⟩ | ⟨_, _, _, rfl⟩ |
        ⟨_, _, _, _, rfl⟩ | ⟨_, _, _, rfl⟩ | ⟨_, _, rfl⟩
      · cases critical with
        | count _ =>
            simp only [gt_iff_lt, ite_eq_right_iff, reduceCtorEq, imp_false, Nat.not_lt,
              Nat.le_zero] at exited
            exact exited
      · cases exited
      · cases exited
      · cases exited
      · exact absurd exited inside
  | tests _ => cases running : state.running <;> simp [running] at exited
  | posts _ =>
      simp only [workerPosted] at exited
      split at exited <;> cases exited
  | _ => exact absurd exited inside

theorem late_step {state next : AuditorState} {action : AuditorAction} (late : LateInvariant state)
    (taken : ((auditor client size).restrict SignalsLate).step state action next) :
    LateInvariant next := by
  obtain ⟨allowed, taken⟩ := taken
  refine ⟨auditorStep_invariant late.invariant taken, late_running late allowed taken, ?_⟩
  intro exited
  by_cases before : state.worker = .exited
  · have done := late.running (late.invariant.workerRunning (Or.inr before))
    exact notProducing_empty done (late.exited before) taken
  · exact exit_empty before taken exited

theorem late_outlives {state : AuditorState} (late : LateInvariant state) : Outlives state where
  producing := by
    rintro ⟨exited, _, producing⟩
    exact late.running (late.invariant.workerRunning (Or.inr exited)) producing
  joined joined := by
    rw [← List.length_eq_zero_iff, contents_length]
    exact late.exited (late.invariant.joined joined)
  unblocked := by
    rintro ⟨exited, waits⟩
    have done := late.running (late.invariant.workerRunning (Or.inr exited))
    simp [late.invariant.mainOutside done, Thread.waitsNotFull] at waits

structure Signalled (state : AuditorState) : Prop where
  invariant : AuditorInvariant state
  stopped : state.running = false
  producing : state.main = .producing

def placeWeight : Thread AuditEvent → Nat
  | .outside => 2
  | .waitingNotEmpty _ => 1
  | _ => 0

def workerWeight (count : Nat) (place : Thread AuditEvent) : WorkerPlace → Nat
  | .exited => 0
  | .counting => if count = 0 then 1 else 4
  | .testing => if count = 0 then 2 else 5
  | .delivering _ retries => (if count = 0 then 2 else 5) + retries
  | .popping => (if count = 0 then 6 else 1) + placeWeight place

def exitWeight (state : AuditorState) : Nat :=
  20 * state.shared.queue.count +
    workerWeight state.shared.queue.count (state.shared.threads .worker) state.worker

theorem critical_advances {state : AuditorState} {shared : QueueState Role AuditEvent}
    {place : WorkerPlace} (signalled : Signalled state) (action : QueueAction Role AuditEvent)
    (byWorker : action.thread = Role.worker) (after : workerAfter state.worker action = some place)
    (critical : QueueStep state.shared action shared)
    (lighter : 20 * shared.queue.count + workerWeight shared.queue.count
      (action.place (state.shared.threads .worker)) place < exitWeight state) :
    ∃ action next, (auditor client size).step state action next ∧ Signalled next ∧
      exitWeight next < exitWeight state := by
  have taken : (auditor client size).step state (.queue action)
      { state with shared, worker := place } := .worker byWorker after critical
  have own := critical.own
  rw [byWorker] at own
  refine ⟨_, _, taken, ⟨auditorStep_invariant signalled.invariant taken, signalled.stopped,
    signalled.producing⟩, ?_⟩
  simpa only [exitWeight, own] using lighter

theorem waiting_advances {state : AuditorState} (signalled : Signalled state)
    (popping : state.worker = .popping) {timeoutMs : Int}
    (here : state.shared.threads .worker = .waitingNotEmpty timeoutMs) :
    ∃ action next, (auditor client size).step state action next ∧ Signalled next ∧
      exitWeight next < exitWeight state := by
  refine critical_advances signalled (.wakes .worker) rfl (by rw [popping]; rfl)
    (.wakes (Or.inr (by rw [here]; rfl))) ?_
  simp [exitWeight, popping, here, QueueAction.place, Thread.wake, workerWeight, placeWeight]

theorem popping_advances {state : AuditorState} (signalled : Signalled state)
    (popping : state.worker = .popping) : ∃ action next,
      (auditor client size).step state action next ∧ Signalled next ∧
        exitWeight next < exitWeight state := by
  have opened : state.shared.queue.shutdown = false := by
    have closed := signalled.invariant.shutdownMain
    simp only [signalled.producing, reduceCtorEq, or_self, iff_false] at closed
    simpa using closed
  have place := signalled.invariant.workerPopping
  rcases Nat.eq_zero_or_pos state.shared.queue.count with empty | nonempty
  · have fails : queuePopResume state.shared.queue = (none, state.shared.queue) := by
      rw [queuePopResume_eq, if_pos (Or.inr empty)]
    cases here : state.shared.threads .worker with
    | outside =>
        refine critical_advances signalled (.popWaits .worker popTimeout) rfl
          (by rw [popping]; rfl) (.popWaits here (by rw [queuePop, if_pos ⟨empty, opened⟩])) ?_
        simp [exitWeight, popping, here, QueueAction.place, workerWeight, placeWeight]
    | wokenNotEmpty =>
        refine critical_advances signalled (.popReturns .worker none) rfl
          (by rw [popping]; rfl) (.popFails (Or.inr ⟨here, fails⟩)) ?_
        simp [exitWeight, popping, here, workerWeight, placeWeight, empty]
    | waitingNotEmpty timeoutMs => exact waiting_advances signalled popping here
    | waitingNotFull _ => simp [here, PoppingPlace] at place
    | wokenNotFull _ => simp [here, PoppingPlace] at place
  · have takes : queuePopResume state.shared.queue =
        (some (state.shared.queue.buffer state.shared.queue.head), state.shared.queue.dequeue) := by
      rw [queuePopResume_eq, if_neg (by simp [opened]; omega)]
    have lighter : ∀ place : Thread AuditEvent, 20 * state.shared.queue.dequeue.count +
        workerWeight state.shared.queue.dequeue.count place
          (.delivering (state.shared.queue.buffer state.shared.queue.head) retriesMax) <
        exitWeight state := by
      intro place
      have fewer : state.shared.queue.dequeue.count + 1 = state.shared.queue.count := by
        simp only [AsyncQueue.dequeue]
        omega
      simp only [exitWeight, popping, workerWeight, retriesMax]
      split <;> omega
    obtain ⟨after, signals⟩ := signals_exists Thread.waitsNotFull
      (setThread state.shared.threads .worker .outside)
    cases here : state.shared.threads .worker with
    | outside =>
        refine critical_advances signalled (.popReturns .worker (some _)) rfl
          (by rw [popping]; rfl) (.popTakes (Or.inl ⟨here, ?_⟩) signals) (lighter _)
        rw [queuePop, if_neg (by omega), takes]
        rfl
    | wokenNotEmpty =>
        exact critical_advances signalled (.popReturns .worker (some _)) rfl
          (by rw [popping]; rfl) (.popTakes (Or.inr ⟨here, takes⟩) signals) (lighter _)
    | waitingNotEmpty timeoutMs => exact waiting_advances signalled popping here
    | waitingNotFull _ => simp [here, PoppingPlace] at place
    | wokenNotFull _ => simp [here, PoppingPlace] at place

theorem signalled_advances {state : AuditorState} (signalled : Signalled state)
    (inside : state.worker ≠ .exited) : ∃ action next,
      (auditor client size).step state action next ∧ Signalled next ∧
        exitWeight next < exitWeight state := by
  cases worker : state.worker with
  | exited => exact absurd worker inside
  | popping => exact popping_advances signalled worker
  | testing =>
      have taken : (auditor client size).step state (.tests state.running) _ := .tests worker
      refine ⟨_, _, taken, ⟨auditorStep_invariant signalled.invariant taken, signalled.stopped,
        signalled.producing⟩, ?_⟩
      simp only [exitWeight, worker, signalled.stopped, Bool.false_eq_true, if_false, workerWeight]
      split <;> omega
  | delivering ev retries =>
      have taken : (auditor client size).step state (.posts fun _ => .completed 201) _ :=
        .posts worker
      refine ⟨_, _, taken, ⟨auditorStep_invariant signalled.invariant taken, signalled.stopped,
        signalled.producing⟩, ?_⟩
      have positive := signalled.invariant.retries ev retries worker
      have fewer := retriesAfter_lt (httpClientPostEvent client (fun _ => .completed 201) ev) positive
      simp only [exitWeight, worker, workerPosted]
      split
      · simp only [workerWeight]
        omega
      · simp only [workerWeight]
        omega
  | counting =>
      have outside := signalled.invariant.workerOutside (by simp [worker])
      refine critical_advances signalled (.count .worker state.shared.queue.count) rfl
        (by rw [worker]; rfl) (.count outside) ?_
      simp only [exitWeight, worker, QueueAction.place, outside]
      rcases Nat.eq_zero_or_pos state.shared.queue.count with empty | nonempty
      · simp [empty, workerWeight]
      · simp [nonempty, workerWeight, placeWeight, Nat.ne_of_gt nonempty]

theorem signalled_exits {state : AuditorState} (signalled : Signalled state) :
    ∃ actions target, Path (auditor client size) state actions target ∧ Signalled target ∧
      target.worker = .exited :=
  System.descends Signalled exitWeight
    (fun _ still inside => signalled_advances still inside) signalled

theorem signalled_exit_unsafe {state : AuditorState} (signalled : Signalled state)
    (exited : state.worker = .exited) : ¬Outlives state := by
  intro outlives
  have closed := signalled.invariant.shutdownMain
  simp only [signalled.producing, reduceCtorEq, or_self, iff_false, Bool.not_eq_true] at closed
  exact outlives.producing ⟨exited, closed, signalled.producing⟩

theorem late_initially {state : AuditorState} (started : (auditor client size).start state) :
    LateInvariant state := by
  refine ⟨auditor_initially started, ?_, ?_⟩
  · obtain ⟨_, running, _⟩ := started
    simp [running]
  · obtain ⟨_, _, _, worker⟩ := started
    simp [worker]

theorem consumer_outlives_iff :
    (∀ state, ((auditor client size).restrict SignalsLate).Reachable state → Outlives state) ∧
    (∀ state, (auditor client size).Reachable state → state.main = .producing →
      ∃ actions target, Path (auditor client size) state (.signal :: actions) target ∧
        ¬Outlives target) := by
  constructor
  · intro state reachable
    have initially : ∀ source, (auditor client size).start source → LateInvariant source :=
      fun _ started => late_initially started
    exact late_outlives (reachable.invariant LateInvariant initially
      fun _ _ _ late taken => late_step late taken)
  · intro state reachable producing
    have taken : (auditor client size).step state .signal _ := .signal
    have signalled : Signalled { state with running := false } :=
      ⟨auditorStep_invariant (auditor_invariant reachable) taken, rfl, producing⟩
    obtain ⟨actions, target, path, atTarget, exited⟩ := signalled_exits signalled
    exact ⟨actions, target, .step taken path, signalled_exit_unsafe atTarget exited⟩

theorem emptyClosed_late :
    ((auditor ⟨true, .zero⟩ 1).restrict SignalsLate).Reachable emptyClosed := by
  have started : (auditor ⟨true, .zero⟩ 1).start freshState := freshState_starts
  exact ⟨freshState, [.stops, .queue (.shutdown .main)], started,
    .step ⟨nofun, .stops rfl rfl⟩ (.single ⟨nofun, .main rfl rfl (.shutdown rfl)⟩)⟩

theorem emptyClosed_outlives : Outlives emptyClosed :=
  consumer_outlives_iff.1 emptyClosed emptyClosed_late

def lostEvent : AuditorState where
  shared := { queue := queueShutdown filledQueue, threads := broadcast filledThreads }
  running := false
  main := .joined
  worker := .exited

theorem lostEvent_reached :
    (auditor ⟨true, .zero⟩ 1).Reachable lostEvent ∧ ¬Outlives lostEvent := by
  refine ⟨⟨freshState, [.signal, .tests false, .queue (.count .worker 0),
    .queue (.pushReturns .main .zero 0), .stops, .queue (.shutdown .main), .joins],
    freshState_starts, ?_⟩, fun outlives => ?_⟩
  · refine .step .signal (.step (.tests rfl) (.step (.worker rfl rfl (.count rfl))
      (.step (.main rfl rfl (.pushAccepted (Or.inl rfl) rfl ?_))
        (.step (.stops rfl (filledThreads_outside .main))
          (.step (.main rfl rfl (.shutdown (filledThreads_outside .main)))
            (.single (.joins rfl rfl)))))))
    exact Or.inr ⟨fun role => congrArg Thread.waitsNotEmpty (filledThreads_outside role), rfl⟩
  · have nothing := congrArg List.length (outlives.joined rfl)
    rw [contents_length] at nothing
    cases nothing

end BlockchainAuditor
