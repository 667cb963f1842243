import BlockchainAuditor.QueueThreads

/-! When `queue_pop` without a timeout fails. The queue forgets what a woken thread
was called with, so the runs below also keep each thread's last `timeout_ms`. -/

namespace BlockchainAuditor

open Transitions

variable {α Tid : Type}

structure TimedState (Tid α : Type) where
  shared : QueueState Tid α
  timeouts : Tid → Int

section Timeouts

variable [DecidableEq Tid]

def noteTimeout (timeouts : Tid → Int) : QueueAction Tid α → Tid → Int
  | .popWaits thread timeoutMs => Function.update timeouts thread timeoutMs
  | _ => timeouts

/-- The critical sections of `queueSystem`, with the timeouts noted beside them. -/
def timedQueue (Tid α : Type) [DecidableEq Tid] (size : Int) :
    System (TimedState Tid α) (QueueAction Tid α) where
  start state := (queueSystem Tid α size).start state.shared
  step state action next := QueueStep state.shared action next.shared ∧
    next.timeouts = noteTimeout state.timeouts action

theorem timedQueue_iff {size : Int} {source target : TimedState Tid α}
    {actions : List (QueueAction Tid α)} :
    Path (timedQueue Tid α size) source actions target ↔
      Path (queueSystem Tid α size) source.shared actions target.shared ∧
        target.timeouts = actions.foldl noteTimeout source.timeouts := by
  constructor
  · intro path
    induction path with
    | refl state => exact ⟨.refl _, rfl⟩
    | step taken _ ih =>
        obtain ⟨rest, timeouts⟩ := ih
        refine ⟨.step taken.1 rest, ?_⟩
        rw [timeouts, taken.2, List.foldl_cons]
  · rintro ⟨path, timeouts⟩
    obtain ⟨first, noted⟩ := source
    obtain ⟨last, final⟩ := target
    dsimp only at path timeouts
    subst timeouts
    induction path generalizing noted with
    | refl state => exact .refl _
    | @step source action middle _ _ taken _ ih =>
        have first : (timedQueue Tid α size).step ⟨source, noted⟩ action
            ⟨middle, noteTimeout noted action⟩ := ⟨taken, rfl⟩
        exact .step first (ih _)

end Timeouts

def TimedState.Resumes (state : TimedState Tid α) (thread : Tid) : Prop :=
  state.shared.threads thread = .wokenNotEmpty ∧ state.timeouts thread ≤ 0

def PopOutcome (queue : AsyncQueue α) : Option α → Prop
  | none => queue.shutdown = true
  | some ev => queue.contents.head? = some ev

/-- A pop that never waited is right whatever its timeout, one that waited when it has none. -/
def UntimedPopRight (state : TimedState Tid α) : QueueAction Tid α → Prop
  | .popReturns thread result =>
      state.shared.threads thread = .outside ∨ state.Resumes thread →
        PopOutcome state.shared.queue result
  | _ => True

/-- No thread goes on with an untimed pop while the queue is open and empty. -/
def ResumesReady (state : TimedState Tid α) : QueueAction Tid α → Prop
  | .popReturns thread _ => state.Resumes thread →
      0 < state.shared.queue.count ∨ state.shared.queue.shutdown = true
  | _ => True

section Steps

variable [DecidableEq Tid] {state next : QueueState Tid α} {thread : Tid} {result : Option α}

theorem popReturns_place (taken : QueueStep state (.popReturns thread result) next) :
    state.threads thread = .wokenNotEmpty ∨
      (state.threads thread = .outside ∧
        ¬(state.queue.count = 0 ∧ state.queue.shutdown = false)) := by
  have entered : ∀ {outcome}, queuePop state.queue = some outcome →
      ¬(state.queue.count = 0 ∧ state.queue.shutdown = false) := by
    intro outcome returned waits
    simp [queuePop, waits] at returned
  cases taken with
  | popFails returned =>
      rcases returned with ⟨outside, returned⟩ | ⟨woken, _⟩
      · exact Or.inr ⟨outside, entered returned⟩
      · exact Or.inl woken
  | popTakes returned _ =>
      rcases returned with ⟨outside, returned⟩ | ⟨woken, _⟩
      · exact Or.inr ⟨outside, entered returned⟩
      · exact Or.inl woken

theorem popOutcome_iff (ring : RingInvariant state.queue)
    (taken : QueueStep state (.popReturns thread result) next) :
    PopOutcome state.queue result ↔ 0 < state.queue.count ∨ state.queue.shutdown = true := by
  have effect := taken.effect
  generalize next.queue = queue at effect
  cases effect with
  | popFails failing =>
      constructor
      · exact fun closed => Or.inr closed
      · rintro (some | closed)
        · exact failing.resolve_right (by omega)
        · exact closed
  | popTakes opened nonempty =>
      refine ⟨fun _ => Or.inl nonempty, fun _ => ?_⟩
      rw [PopOutcome, dequeue_contents ring nonempty, List.head?_cons]

end Steps

theorem untimedPopRight_iff [DecidableEq Tid] {size : Int} {state next : TimedState Tid α}
    {action : QueueAction Tid α} (ring : RingInvariant state.shared.queue)
    (taken : (timedQueue Tid α size).step state action next) :
    UntimedPopRight state action ↔ ResumesReady state action := by
  cases action with
  | popReturns thread result =>
      have outcome := popOutcome_iff ring taken.1
      simp only [UntimedPopRight, ResumesReady, outcome]
      refine ⟨fun right resumes => right (Or.inr resumes), fun ready place => ?_⟩
      rcases place with outside | resumes
      · -- a pop that did not wait has tested the queue itself
        rcases popReturns_place taken.1 with woken | ⟨_, tested⟩
        · simp [outside] at woken
        · by_cases closed : state.shared.queue.shutdown = true
          · exact Or.inr closed
          · refine Or.inl (Nat.pos_of_ne_zero fun empty => tested ⟨empty, ?_⟩)
            simpa using closed
      · exact ready resumes
  | _ => exact Iff.rfl

/-- Every run of the queue is one of `timedQueue`, and the `if` around the wait is enough
in exactly those where a woken consumer still finds an event, or a shutdown. -/
theorem untimedPops_iff [DecidableEq Tid] {size : Int} {source target : TimedState Tid α}
    {actions : List (QueueAction Tid α)} (started : (timedQueue Tid α size).start source) :
    (Path (timedQueue Tid α size) source actions target ↔
      Path (queueSystem Tid α size) source.shared actions target.shared ∧
        target.timeouts = actions.foldl noteTimeout source.timeouts) ∧
    (Path ((timedQueue Tid α size).restrict UntimedPopRight) source actions target ↔
      Path ((timedQueue Tid α size).restrict ResumesReady) source actions target) := by
  refine ⟨timedQueue_iff, ?_⟩
  apply Path.restrict_iff fun state => RingInvariant state.shared.queue
  · intro state action next ring taken
    exact taken.1.effect.ring ring
  · exact fun _ _ _ => untimedPopRight_iff
  · obtain ⟨⟨memory, initialised⟩, _⟩ := started
    exact (queueInit_ring initialised).1

def idleSlot : TimedState Bool Nat where
  shared := slotState slotQueue
  timeouts _ := 0

def wokenConsumer : Bool → Thread Nat :=
  let waiting := setThread (fun _ => .outside) true (.waitingNotEmpty 0)
  setThread (setThread waiting false .outside) true .wokenNotEmpty

def wokenSlot : TimedState Bool Nat where
  shared := { queue := slotQueue.enqueue 7, threads := wokenConsumer }
  timeouts := Function.update (fun _ => 0) true 0

def overtakenSlot : TimedState Bool Nat where
  shared :=
    { queue := (slotQueue.enqueue 7).dequeue, threads := setThread wokenConsumer false .outside }
  timeouts := Function.update (fun _ => 0) true 0

theorem idleSlot_start : (timedQueue Bool Nat 1).start idleSlot :=
  ⟨⟨fun _ => 0, rfl⟩, fun _ => rfl⟩

theorem slot_waits : (timedQueue Bool Nat 1).step idleSlot (.popWaits true 0)
    ⟨⟨slotQueue, setThread (fun _ => .outside) true (.waitingNotEmpty 0)⟩, wokenSlot.timeouts⟩ :=
  ⟨.popWaits rfl rfl, rfl⟩

theorem slot_wakes : (timedQueue Bool Nat 1).step
    ⟨⟨slotQueue, setThread (fun _ => .outside) true (.waitingNotEmpty 0)⟩, wokenSlot.timeouts⟩
    (.pushReturns false 7 0) wokenSlot :=
  ⟨.pushAccepted (Or.inl rfl) rfl (Or.inl ⟨true, rfl, rfl⟩), rfl⟩

theorem nobody_waitsNotFull (thread : Bool) :
    (setThread wokenConsumer false .outside thread).waitsNotFull = false := by
  cases thread <;> rfl

theorem overtakenPop_fails : ∃ actions next,
    Path (timedQueue Bool Nat 1) idleSlot actions overtakenSlot ∧
      (timedQueue Bool Nat 1).step overtakenSlot (.popReturns true none) next ∧
      overtakenSlot.Resumes true ∧ overtakenSlot.shared.queue.shutdown = false := by
  have takes : (timedQueue Bool Nat 1).step wokenSlot (.popReturns false (some 7)) overtakenSlot :=
    ⟨.popTakes (Or.inl ⟨rfl, rfl⟩) (Or.inr ⟨nobody_waitsNotFull, rfl⟩), rfl⟩
  exact ⟨_, ⟨_, _⟩, .step slot_waits (.step slot_wakes (.single takes)),
    ⟨.popFails (Or.inr ⟨rfl, rfl⟩), rfl⟩, ⟨rfl, Int.le_refl 0⟩, rfl⟩

theorem wokenPop_right : ∃ target, Path ((timedQueue Bool Nat 1).restrict UntimedPopRight)
    idleSlot [.popWaits true 0, .pushReturns false 7 0, .popReturns true (some 7)] target := by
  have idle : ∀ thread, (setThread wokenConsumer true .outside thread).waitsNotFull = false := by
    intro thread
    cases thread <;> rfl
  have takes : (timedQueue Bool Nat 1).step wokenSlot (.popReturns true (some 7))
      ⟨⟨(slotQueue.enqueue 7).dequeue, setThread wokenConsumer true .outside⟩,
        wokenSlot.timeouts⟩ :=
    ⟨.popTakes (Or.inr ⟨rfl, rfl⟩) (Or.inr ⟨idle, rfl⟩), rfl⟩
  exact ⟨_, (untimedPops_iff idleSlot_start).2.mpr (.step ⟨trivial, slot_waits⟩
    (.step ⟨trivial, slot_wakes⟩ (.single ⟨fun _ => Or.inl Nat.one_pos, takes⟩)))⟩

end BlockchainAuditor
