import BlockchainAuditor.EventDelivery
import BlockchainAuditor.QueueThreads

/-! The auditor process of `main.c`: the main thread with its capture or monitor loop,
`worker_thread`, the signal handler, and the queue between them. -/

namespace BlockchainAuditor

open Transitions

inductive Role
  | main
  | worker
  deriving DecidableEq

/-- The main thread runs its loop, whose callback pushes, then sets `g_running` to 0,
calls `queue_shutdown` and joins the worker. -/
inductive MainPlace
  | producing
  | stopped
  | closed
  | joined
  deriving DecidableEq

/-- The worker tests `g_running`, then, when it is 0, `queue_count`; it pops and delivers. -/
inductive WorkerPlace
  | testing
  | counting
  | popping
  | delivering (ev : AuditEvent) (retries : Nat)
  | exited

structure AuditorState where
  shared : QueueState Role AuditEvent
  running : Bool
  main : MainPlace
  worker : WorkerPlace

def popTimeout : Int := 1000

def mainAfter : MainPlace → QueueAction Role AuditEvent → Option MainPlace
  | .producing, .pushWaits _ _ => some .producing
  | .producing, .pushReturns _ _ _ => some .producing
  | .producing, .count _ _ => some .producing
  | .stopped, .shutdown _ => some .closed
  | place, .wakes _ => some place
  | _, _ => none

def workerAfter : WorkerPlace → QueueAction Role AuditEvent → Option WorkerPlace
  | .counting, .count _ value => some (if value > 0 then .popping else .exited)
  | .popping, .popWaits _ timeoutMs => if timeoutMs = popTimeout then some .popping else none
  | .popping, .popReturns _ (some ev) => some (.delivering ev retriesMax)
  | .popping, .popReturns _ none => some .testing
  | place, .wakes _ => some place
  | _, _ => none

def workerPosted (client : HttpClient) (network : Network) (ev : AuditEvent) (retries : Nat) :
    WorkerPlace :=
  let left := retriesAfter (httpClientPostEvent client network ev) retries
  if left > 0 then .delivering ev left else .testing

inductive AuditorAction
  | queue (action : QueueAction Role AuditEvent)
  | stops
  | joins
  | signal
  | tests (running : Bool)
  | posts (network : Network)

inductive AuditorStep (client : HttpClient) : AuditorState → AuditorAction → AuditorState → Prop
  | main {state action shared place} : action.thread = Role.main →
      mainAfter state.main action = some place → QueueStep state.shared action shared →
      AuditorStep client state (.queue action) { state with shared, main := place }
  | worker {state action shared place} : action.thread = Role.worker →
      workerAfter state.worker action = some place → QueueStep state.shared action shared →
      AuditorStep client state (.queue action) { state with shared, worker := place }
  | stops {state} : state.main = .producing → state.shared.threads .main = .outside →
      AuditorStep client state .stops { state with running := false, main := .stopped }
  | joins {state} : state.main = .closed → state.worker = .exited →
      AuditorStep client state .joins { state with main := .joined }
  | signal {state} : AuditorStep client state .signal { state with running := false }
  | tests {state} : state.worker = .testing →
      AuditorStep client state (.tests state.running)
        { state with worker := if state.running then .popping else .counting }
  | posts {state ev retries network} : state.worker = .delivering ev retries →
      AuditorStep client state (.posts network)
        { state with worker := workerPosted client network ev retries }

def auditor (client : HttpClient) (size : Int) : System AuditorState AuditorAction where
  start state := (queueSystem Role AuditEvent size).start state.shared ∧
    state.running = true ∧ state.main = .producing ∧ state.worker = .testing
  step := AuditorStep client

def AuditorAction.queue? : AuditorAction → Option (QueueAction Role AuditEvent)
  | .queue action => some action
  | _ => none

def queueActions (actions : List AuditorAction) : List (QueueAction Role AuditEvent) :=
  actions.filterMap AuditorAction.queue?

variable {client : HttpClient} {size : Int}

theorem queueActions_path {source target : AuditorState} {actions : List AuditorAction}
    (path : Path (auditor client size) source actions target) :
    Path (queueSystem Role AuditEvent size) source.shared (queueActions actions)
      target.shared := by
  induction path with
  | refl state => exact .refl _
  | step taken _ ih =>
      cases taken with
      | main _ _ critical => exact .step critical ih
      | worker _ _ critical => exact .step critical ih
      | _ => exact ih

def PoppingPlace : Thread AuditEvent → Prop
  | .outside => True
  | .waitingNotEmpty _ => True
  | .wokenNotEmpty => True
  | _ => False

structure AuditorInvariant (state : AuditorState) : Prop where
  ring : RingInvariant state.shared.queue
  mainOutside : state.main ≠ .producing → state.shared.threads .main = .outside
  mainRunning : state.main ≠ .producing → state.running = false
  shutdownMain : state.shared.queue.shutdown = true ↔
    state.main = .closed ∨ state.main = .joined
  joined : state.main = .joined → state.worker = .exited
  unparked : state.shared.queue.shutdown = true →
    ∀ thread, (state.shared.threads thread).parked = false
  workerOutside : state.worker ≠ .popping → state.shared.threads .worker = .outside
  workerPopping : PoppingPlace (state.shared.threads .worker)
  workerRunning : state.worker = .counting ∨ state.worker = .exited → state.running = false
  retries : ∀ ev left, state.worker = .delivering ev left → 0 < left

theorem mainAfter_cases {main place : MainPlace} {action : QueueAction Role AuditEvent}
    (allowed : mainAfter main action = some place) :
    (main = .producing ∧ place = .producing ∧ ∀ thread, action ≠ .shutdown thread) ∨
    (main = .stopped ∧ place = .closed ∧ ∃ thread, action = .shutdown thread) ∨
    (place = main ∧ ∃ thread, action = .wakes thread) := by
  cases action <;> cases main <;> simp_all [mainAfter]

theorem workerAfter_cases {worker place : WorkerPlace} {action : QueueAction Role AuditEvent}
    (allowed : workerAfter worker action = some place) :
    (∃ thread value, worker = .counting ∧ action = .count thread value ∧
      place = if value > 0 then .popping else .exited) ∨
    (∃ thread, worker = .popping ∧ action = .popWaits thread popTimeout ∧ place = .popping) ∨
    (∃ thread ev, worker = .popping ∧ action = .popReturns thread (some ev) ∧
      place = .delivering ev retriesMax) ∨
    (∃ thread, worker = .popping ∧ action = .popReturns thread none ∧ place = .testing) ∨
    (∃ thread, action = .wakes thread ∧ place = worker) := by
  cases action with
  | wakes thread => cases worker <;> simp_all [workerAfter]
  | popReturns thread ev => cases worker <;> cases ev <;> simp_all [workerAfter]
  | count thread value => cases worker <;> simp_all [workerAfter]
  | popWaits thread timeoutMs => cases worker <;> simp_all [workerAfter]
  | _ => cases worker <;> simp [workerAfter] at allowed

theorem QueueEffect.keepsShutdown {α Tid : Type} {queue after : AsyncQueue α}
    {action : QueueAction Tid α} (effect : QueueEffect queue action after)
    (other : ∀ thread, action ≠ .shutdown thread) : after.shutdown = queue.shutdown := by
  cases effect with
  | shutdown => exact absurd rfl (other _)
  | _ => rfl

theorem poppingPlace_wake {place : Thread AuditEvent} (popping : PoppingPlace place) :
    PoppingPlace place.wake := by
  cases place <;> simp_all [PoppingPlace, Thread.wake]

theorem auditor_initially {state : AuditorState} (started : (auditor client size).start state) :
    AuditorInvariant state := by
  obtain ⟨⟨⟨memory, initialised⟩, outside⟩, running, main, worker⟩ := started
  obtain ⟨ring, _, opened⟩ := queueInit_ring initialised
  constructor <;> simp_all [PoppingPlace]

theorem mainStep_invariant {state : AuditorState} {action : QueueAction Role AuditEvent}
    {shared : QueueState Role AuditEvent} {place : MainPlace} (invariant : AuditorInvariant state)
    (byMain : action.thread = Role.main) (allowed : mainAfter state.main action = some place)
    (critical : QueueStep state.shared action shared) :
    AuditorInvariant { state with shared, main := place } := by
  have different : Role.worker ≠ action.thread := by rw [byMain]; decide
  have own := critical.own
  rw [byMain] at own
  refine ⟨critical.effect.ring invariant.ring, ?_, ?_, ?_, ?_, critical.unparked invariant.unparked,
    fun idle => critical.outside different (invariant.workerOutside idle), ?_,
    invariant.workerRunning, invariant.retries⟩
  · intro notProducing
    rcases mainAfter_cases allowed with ⟨_, rfl, _⟩ | ⟨_, _, _, rfl⟩ | ⟨rfl, _, rfl⟩
    · exact absurd rfl notProducing
    · exact own
    · rw [invariant.mainOutside notProducing] at own
      exact own
  · intro notProducing
    rcases mainAfter_cases allowed with ⟨_, rfl, _⟩ | ⟨stopped, _, _⟩ | ⟨rfl, _⟩
    · exact absurd rfl notProducing
    · exact invariant.mainRunning (by simp [stopped])
    · exact invariant.mainRunning notProducing
  · rcases mainAfter_cases allowed with ⟨producing, rfl, other⟩ | ⟨_, rfl, _, rfl⟩ | ⟨rfl, _, rfl⟩
    · rw [critical.effect.keepsShutdown other, invariant.shutdownMain, producing]
    · cases critical with
      | shutdown _ => simp [queueShutdown]
    · rw [critical.effect.keepsShutdown (by simp)]
      exact invariant.shutdownMain
  · intro joined
    rcases mainAfter_cases allowed with ⟨_, rfl, _⟩ | ⟨_, rfl, _⟩ | ⟨rfl, _⟩
    · cases joined
    · cases joined
    · exact invariant.joined joined
  · rcases critical.others different with kept | woken
    · exact kept ▸ invariant.workerPopping
    · exact woken ▸ poppingPlace_wake invariant.workerPopping

theorem workerStep_invariant {state : AuditorState} {action : QueueAction Role AuditEvent}
    {shared : QueueState Role AuditEvent} {place : WorkerPlace} (invariant : AuditorInvariant state)
    (byWorker : action.thread = Role.worker) (allowed : workerAfter state.worker action = some place)
    (critical : QueueStep state.shared action shared) :
    AuditorInvariant { state with shared, worker := place } := by
  have different : Role.main ≠ action.thread := by rw [byWorker]; decide
  have own := critical.own
  rw [byWorker] at own
  have keepsShutdown : shared.queue.shutdown = state.shared.queue.shutdown := by
    refine critical.effect.keepsShutdown fun thread => ?_
    rintro rfl
    simp [workerAfter] at allowed
  refine ⟨critical.effect.ring invariant.ring,
    fun done => critical.outside different (invariant.mainOutside done), invariant.mainRunning,
    keepsShutdown ▸ invariant.shutdownMain, ?_, critical.unparked invariant.unparked, ?_, ?_, ?_, ?_⟩
  · intro joined
    have exited := invariant.joined joined
    rcases workerAfter_cases allowed with ⟨_, _, counting, _⟩ | ⟨_, popping, _⟩ |
      ⟨_, _, popping, _⟩ | ⟨_, popping, _⟩ | ⟨_, _, rfl⟩
    · simp [exited] at counting
    · simp [exited] at popping
    · simp [exited] at popping
    · simp [exited] at popping
    · exact exited
  · intro idle
    rcases workerAfter_cases allowed with ⟨_, _, _, rfl, _⟩ | ⟨_, _, _, rfl⟩ |
      ⟨_, _, _, rfl, _⟩ | ⟨_, _, rfl, _⟩ | ⟨_, rfl, rfl⟩
    · exact own
    · exact absurd rfl idle
    · exact own
    · exact own
    · rw [invariant.workerOutside idle] at own
      exact own
  · change PoppingPlace (shared.threads .worker)
    rw [own]
    rcases workerAfter_cases allowed with ⟨_, _, _, rfl, _⟩ | ⟨_, _, rfl, _⟩ |
      ⟨_, _, _, rfl, _⟩ | ⟨_, _, rfl, _⟩ | ⟨_, rfl, _⟩
    · trivial
    · trivial
    · trivial
    · trivial
    · exact poppingPlace_wake invariant.workerPopping
  · intro ended
    rcases workerAfter_cases allowed with ⟨_, _, counting, _⟩ | ⟨_, _, _, rfl⟩ |
      ⟨_, _, _, _, rfl⟩ | ⟨_, _, _, rfl⟩ | ⟨_, _, rfl⟩
    · exact invariant.workerRunning (Or.inl counting)
    · simp at ended
    · simp at ended
    · simp at ended
    · exact invariant.workerRunning ended
  · intro ev left delivering
    rcases workerAfter_cases allowed with ⟨_, _, _, _, rfl⟩ | ⟨_, _, _, rfl⟩ |
      ⟨_, _, _, _, rfl⟩ | ⟨_, _, _, rfl⟩ | ⟨_, _, rfl⟩
    · split at delivering <;> cases delivering
    · cases delivering
    · cases delivering
      decide
    · cases delivering
    · exact invariant.retries ev left delivering

theorem auditorStep_invariant {state next : AuditorState} {action : AuditorAction}
    (invariant : AuditorInvariant state) (taken : (auditor client size).step state action next) :
    AuditorInvariant next := by
  cases taken with
  | main byMain allowed critical => exact mainStep_invariant invariant byMain allowed critical
  | worker byWorker allowed critical => exact workerStep_invariant invariant byWorker allowed critical
  | stops producing outside =>
      have opened : ¬state.shared.queue.shutdown = true := by
        simp [invariant.shutdownMain, producing]
      exact { invariant with
        mainOutside := fun _ => outside
        mainRunning := fun _ => rfl
        shutdownMain := by simpa using opened
        joined := by simp
        workerRunning := fun _ => rfl }
  | joins closed exited =>
      have notProducing : state.main ≠ .producing := by simp [closed]
      exact { invariant with
        mainOutside := fun _ => invariant.mainOutside notProducing
        mainRunning := fun _ => invariant.mainRunning notProducing
        shutdownMain := by simp [invariant.shutdownMain, closed]
        joined := fun _ => exited }
  | signal =>
      exact { invariant with
        mainRunning := fun _ => rfl
        workerRunning := fun _ => rfl }
  | tests testing =>
      have outside := invariant.workerOutside (by simp [testing])
      refine { invariant with
        joined := fun joined => ?_
        workerOutside := fun _ => outside
        workerRunning := ?_
        retries := ?_ }
      · simp [invariant.joined joined] at testing
      · cases state.running <;> simp
      · cases state.running <;> simp
  | posts delivering =>
      have outside := invariant.workerOutside (by simp [delivering])
      refine { invariant with
        joined := fun joined => ?_
        workerOutside := fun _ => outside
        workerRunning := ?_
        retries := ?_ }
      · simp [invariant.joined joined] at delivering
      · simp only [workerPosted]
        split <;> simp
      · intro other left places
        simp only [workerPosted] at places
        split at places
        · cases places
          assumption
        · cases places

theorem auditor_invariant {state : AuditorState} (reachable : (auditor client size).Reachable state) :
    AuditorInvariant state :=
  reachable.invariant AuditorInvariant (fun _ started => auditor_initially started)
    fun _ _ _ invariant taken => auditorStep_invariant invariant taken

end BlockchainAuditor
