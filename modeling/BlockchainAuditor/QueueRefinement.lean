import BlockchainAuditor.Queue

/-! The ring buffer of `queue.c` refines a bounded FIFO over every interleaving of
its critical sections. -/

namespace BlockchainAuditor

open Transitions BoundedFifo

variable {α Tid : Type}

def AsyncQueue.contents (queue : AsyncQueue α) : List α :=
  window queue.buffer queue.size queue.head queue.count

structure RingInvariant (queue : AsyncQueue α) : Prop where
  countBound : queue.count ≤ queue.size
  headBound : queue.head < queue.size
  tailBound : queue.tail < queue.size
  tailEq : queue.tail = (queue.head + queue.count) % queue.size

def AsyncQueue.enqueue (queue : AsyncQueue α) (ev : α) : AsyncQueue α :=
  { queue with
    buffer := Function.update queue.buffer queue.tail ev
    tail := (queue.tail + 1) % queue.size
    count := queue.count + 1 }

def AsyncQueue.dequeue (queue : AsyncQueue α) : AsyncQueue α :=
  { queue with head := (queue.head + 1) % queue.size, count := queue.count - 1 }

@[simp] theorem contents_length (queue : AsyncQueue α) :
    queue.contents.length = queue.count := by
  simp [AsyncQueue.contents]

theorem queueInit_ring {memory : Option (Nat → α)} {size : Int} {queue : AsyncQueue α}
    (initialised : queueInit memory size = some queue) :
    RingInvariant queue ∧ queue.count = 0 ∧ queue.shutdown = false := by
  cases memory with
  | none => simp [queueInit] at initialised
  | some buffer =>
      simp only [queueInit, Option.some.injEq] at initialised
      subst queue
      have positive : 0 < if size ≤ 0 then queueDefaultSize else size.toNat := by
        split
        · decide
        · omega
      exact ⟨⟨Nat.zero_le _, positive, positive, by simp⟩, rfl, rfl⟩

theorem enqueue_ring {queue : AsyncQueue α} (ring : RingInvariant queue)
    (room : queue.count < queue.size) (ev : α) : RingInvariant (queue.enqueue ev) := by
  have positive : 0 < queue.size := by omega
  refine ⟨room, ring.headBound, Nat.mod_lt _ positive, ?_⟩
  simp only [AsyncQueue.enqueue, ring.tailEq, Nat.mod_add_mod, Nat.add_assoc]

theorem dequeue_ring {queue : AsyncQueue α} (ring : RingInvariant queue)
    (nonempty : 0 < queue.count) : RingInvariant queue.dequeue := by
  have countBound := ring.countBound
  have positive : 0 < queue.size := by omega
  refine ⟨by simp only [AsyncQueue.dequeue]; omega, Nat.mod_lt _ positive, ring.tailBound, ?_⟩
  simp only [AsyncQueue.dequeue, ring.tailEq, Nat.mod_add_mod]
  congr 1
  omega

theorem enqueue_contents {queue : AsyncQueue α} (ring : RingInvariant queue)
    (room : queue.count < queue.size) (ev : α) :
    (queue.enqueue ev).contents = queue.contents ++ [ev] := by
  simp only [AsyncQueue.contents, AsyncQueue.enqueue, ring.tailEq]
  exact window_write ev room

theorem dequeue_contents {queue : AsyncQueue α} (ring : RingInvariant queue)
    (nonempty : 0 < queue.count) :
    queue.contents = queue.buffer queue.head :: queue.dequeue.contents :=
  window_advance ring.headBound nonempty

inductive QueueEffect (queue : AsyncQueue α) : QueueAction Tid α → AsyncQueue α → Prop
  | pushWaits {thread ev} : queue.shutdown = false → queue.size ≤ queue.count →
      QueueEffect queue (.pushWaits thread ev) queue
  | rejected {thread ev} : queue.shutdown = true →
      QueueEffect queue (.pushReturns thread ev (-1)) queue
  | accepted {thread ev} : queue.shutdown = false → queue.count < queue.size →
      QueueEffect queue (.pushReturns thread ev 0) (queue.enqueue ev)
  | popWaits {thread timeoutMs} : queue.shutdown = false → queue.count = 0 →
      QueueEffect queue (.popWaits thread timeoutMs) queue
  | popFails {thread} : queue.shutdown = true ∨ queue.count = 0 →
      QueueEffect queue (.popReturns thread none) queue
  | popTakes {thread} : queue.shutdown = false → 0 < queue.count →
      QueueEffect queue (.popReturns thread (some (queue.buffer queue.head))) queue.dequeue
  | wakes {thread} : QueueEffect queue (.wakes thread) queue
  | shutdown {thread} : QueueEffect queue (.shutdown thread) (queueShutdown queue)
  | count {thread} : QueueEffect queue (.count thread queue.count) queue

theorem queuePush_eq (queue : AsyncQueue α) (ev : α) :
    queuePush queue ev =
      if queue.shutdown then some (-1, queue)
      else if queue.size ≤ queue.count then none else some (0, queue.enqueue ev) := by
  cases closed : queue.shutdown <;> simp [queuePush, closed, AsyncQueue.enqueue]

theorem queuePopResume_eq (queue : AsyncQueue α) :
    queuePopResume queue =
      if queue.shutdown = true ∨ queue.count = 0 then (none, queue)
      else (some (queue.buffer queue.head), queue.dequeue) := by
  simp only [queuePopResume, AsyncQueue.dequeue, or_comm]

/-- Whether a thread enters `queue_pop` or resumes it, a pop that returns has the
same two outcomes. -/
theorem popSection_eq {queue next : AsyncQueue α} {outside woken : Prop} {result : Option α}
    (returned : (outside ∧ queuePop queue = some (result, next)) ∨
      (woken ∧ queuePopResume queue = (result, next))) :
    queuePopResume queue = (result, next) := by
  rcases returned with ⟨_, entered⟩ | ⟨_, resumed⟩
  · unfold queuePop at entered
    split at entered
    · simp at entered
    · simpa using entered
  · exact resumed

theorem QueueStep.effect [DecidableEq Tid] {state next : QueueState Tid α} {action}
    (taken : QueueStep state action next) : QueueEffect state.queue action next.queue := by
  cases taken with
  | pushWaits _ waits =>
      rw [queuePush_eq] at waits
      split at waits
      · simp at waits
      · split at waits
        · rename_i opened full
          exact .pushWaits (by simpa using opened) full
        · simp at waits
  | pushRejected _ rejected =>
      rw [queuePush_eq] at rejected
      split at rejected
      · rename_i closed
        simp only [Option.some.injEq, Prod.mk.injEq, true_and] at rejected
        subst rejected
        exact .rejected closed
      · split at rejected <;> simp at rejected
  | pushAccepted _ accepted _ =>
      rw [queuePush_eq] at accepted
      split at accepted
      · simp at accepted
      · split at accepted
        · simp at accepted
        · rename_i opened room
          simp only [Option.some.injEq, Prod.mk.injEq, true_and] at accepted
          subst accepted
          exact .accepted (by simpa using opened) (by omega)
  | popWaits _ waits =>
      unfold queuePop at waits
      split at waits
      · rename_i empty
        exact .popWaits empty.2 empty.1
      · simp at waits
  | popFails returned =>
      have resumed := popSection_eq returned
      rw [queuePopResume_eq] at resumed
      split at resumed
      · rename_i failing
        simp only [Prod.mk.injEq, true_and] at resumed
        subst resumed
        exact .popFails failing
      · simp at resumed
  | popTakes returned _ =>
      have resumed := popSection_eq returned
      rw [queuePopResume_eq] at resumed
      split at resumed
      · simp at resumed
      · rename_i taking
        simp only [Prod.mk.injEq, Option.some.injEq] at resumed
        obtain ⟨rfl, rfl⟩ := resumed
        exact .popTakes (by simpa using fun closed => taking (Or.inl closed)) (by omega)
  | wakes _ => exact .wakes
  | shutdown _ => exact .shutdown
  | count _ => exact .count

theorem QueueEffect.ring {queue after : AsyncQueue α} {action : QueueAction Tid α}
    (effect : QueueEffect queue action after) (ring : RingInvariant queue) :
    RingInvariant after := by
  cases effect with
  | accepted _ room => exact enqueue_ring ring room _
  | popTakes _ nonempty => exact dequeue_ring ring nonempty
  | shutdown => exact ⟨ring.countBound, ring.headBound, ring.tailBound, ring.tailEq⟩
  | _ => exact ring

/-! The simulation: each critical section is one event of the FIFO, or none. -/

def observe : QueueAction Tid α → List (Event α)
  | .pushReturns _ ev rc => [.push ev (rc == 0)]
  | .popReturns _ ev => [.pop ev]
  | .shutdown _ => [.close]
  | _ => []

structure Refines (queue : AsyncQueue α) (fifo : Fifo α) : Prop where
  ring : RingInvariant queue
  items : fifo.items = queue.contents
  capacity : fifo.capacity = queue.size
  closed : fifo.closed = queue.shutdown

theorem QueueEffect.refines {queue next : AsyncQueue α} {action : QueueAction Tid α}
    {fifo : Fifo α} (size : Nat) (effect : QueueEffect queue action next)
    (related : Refines queue fifo) :
    ∃ target, Path (channel size) fifo (observe action) target ∧ Refines next target := by
  obtain ⟨ring, items, capacity, closed⟩ := related
  cases effect with
  | pushWaits _ _ => exact ⟨fifo, .refl _, ring, items, capacity, closed⟩
  | rejected shut =>
      exact ⟨fifo, .single (.refuse (closed.trans shut)), ring, items, capacity, closed⟩
  | @accepted _ ev opened room =>
      refine ⟨_, .single (.accept (closed.trans opened) ?_), enqueue_ring ring room ev, ?_,
        capacity, closed⟩
      · rw [items, contents_length, capacity]
        exact room
      · rw [enqueue_contents ring room ev, ← items]
  | popWaits _ _ => exact ⟨fifo, .refl _, ring, items, capacity, closed⟩
  | popFails failing =>
      refine ⟨fifo, .single (.empty ?_), ring, items, capacity, closed⟩
      rcases failing with shut | empty
      · exact Or.inl (closed.trans shut)
      · right
        rw [items, ← List.length_eq_zero_iff, contents_length]
        exact empty
  | popTakes opened nonempty =>
      exact ⟨_, .single (.take (closed.trans opened)
        (items.trans (dequeue_contents ring nonempty))),
        dequeue_ring ring nonempty, rfl, capacity, closed⟩
  | wakes => exact ⟨fifo, .refl _, ring, items, capacity, closed⟩
  | shutdown =>
      exact ⟨_, .single .close, ⟨ring.countBound, ring.headBound, ring.tailBound, ring.tailEq⟩,
        items, capacity, rfl⟩
  | count => exact ⟨fifo, .refl _, ring, items, capacity, closed⟩

def queueCapacity (size : Int) : Nat := if size ≤ 0 then queueDefaultSize else size.toNat

def emptyFifo (α : Type) (capacity : Nat) : Fifo α := { items := [], capacity, closed := false }

theorem queueInit_refines {memory : Nat → α} {size : Int} {queue : AsyncQueue α}
    (initialised : queueInit (some memory) size = some queue) :
    Refines queue (emptyFifo α (queueCapacity size)) := by
  obtain ⟨ring, empty, opened⟩ := queueInit_ring initialised
  have capacity : queueCapacity size = queue.size := by
    simp only [queueInit, Option.some.injEq] at initialised
    simp [← initialised, queueCapacity]
  have noItems : queue.contents = [] := by
    rw [← List.length_eq_zero_iff, contents_length]
    exact empty
  exact ⟨ring, noItems.symm, capacity, opened.symm⟩

def queueSimulation (Tid α : Type) [DecidableEq Tid] (size : Int) :
    Simulation (queueSystem Tid α size) (channel (α := α) (queueCapacity size)) where
  related state fifo := Refines state.queue fifo
  observe := observe
  initially state started := by
    obtain ⟨⟨memory, initialised⟩, _⟩ := started
    exact ⟨_, rfl, queueInit_refines initialised⟩
  replays _ _ _ _ related taken := (QueueStep.effect taken).refines _ related

def QueueAction.accepted? : QueueAction Tid α → Option α
  | .pushReturns _ ev rc => if rc = 0 then some ev else none
  | _ => none

def QueueAction.popped? : QueueAction Tid α → Option α
  | .popReturns _ ev => ev
  | _ => none

def acceptedBy (actions : List (QueueAction Tid α)) : List α :=
  actions.filterMap QueueAction.accepted?

def poppedBy (actions : List (QueueAction Tid α)) : List α :=
  actions.filterMap QueueAction.popped?

theorem pushed_observe (actions : List (QueueAction Tid α)) :
    pushed (actions.flatMap observe) = acceptedBy actions := by
  rw [pushed, List.filterMap_flatMap, acceptedBy,
    List.filterMap_eq_flatMap_toList QueueAction.accepted?]
  congr 1
  funext action
  cases action with
  | pushReturns thread ev rc =>
      by_cases accepted : rc = 0 <;>
        simp [observe, Event.pushed?, QueueAction.accepted?, accepted]
  | popReturns thread ev =>
      cases ev <;> simp [observe, List.filterMap_cons, Event.pushed?, QueueAction.accepted?]
  | shutdown thread => simp [observe, List.filterMap_cons, Event.pushed?, QueueAction.accepted?]
  | _ => simp [observe, QueueAction.accepted?]

theorem popped_observe (actions : List (QueueAction Tid α)) :
    popped (actions.flatMap observe) = poppedBy actions := by
  rw [popped, List.filterMap_flatMap, poppedBy,
    List.filterMap_eq_flatMap_toList QueueAction.popped?]
  congr 1
  funext action
  cases action with
  | pushReturns thread ev rc =>
      simp [observe, List.filterMap_cons, Event.popped?, QueueAction.popped?]
  | popReturns thread ev =>
      cases ev <;> simp [observe, List.filterMap_cons, Event.popped?, QueueAction.popped?]
  | shutdown thread => simp [observe, List.filterMap_cons, Event.popped?, QueueAction.popped?]
  | _ => simp [observe, QueueAction.popped?]

theorem QueueEffect.keepsLive {queue next : AsyncQueue α} {action : QueueAction Tid α}
    (effect : QueueEffect queue action next) (ring : RingInvariant queue) {offset : Nat}
    (live : offset < queue.count) :
    next.buffer ((queue.head + offset) % queue.size) =
      queue.buffer ((queue.head + offset) % queue.size) := by
  cases effect with
  | accepted _ room =>
      simp only [AsyncQueue.enqueue, ring.tailEq]
      exact Function.update_of_ne (ring_offset_ne live room) _ _
  | _ => rfl

section Runs

variable [DecidableEq Tid] {size : Int} {source state : QueueState Tid α}
  {actions : List (QueueAction Tid α)}

theorem queueRun_refines (started : (queueSystem Tid α size).start source)
    (path : Path (queueSystem Tid α size) source actions state) :
    ∃ fifo, Path (channel (queueCapacity size)) (emptyFifo α (queueCapacity size))
        (actions.flatMap observe) fifo ∧ Refines state.queue fifo := by
  obtain ⟨⟨memory, initialised⟩, _⟩ := started
  exact (queueSimulation Tid α size).run path (queueInit_refines initialised)

theorem queueRun_conserves (started : (queueSystem Tid α size).start source)
    (path : Path (queueSystem Tid α size) source actions state) :
    acceptedBy actions = poppedBy actions ++ state.queue.contents := by
  obtain ⟨fifo, replay, refines⟩ := queueRun_refines started path
  have conserved := path_conserves replay
  rw [pushed_observe, popped_observe, refines.items] at conserved
  simpa [emptyFifo] using conserved

/-- The ring buffer is a bounded FIFO, whatever the size and the interleaving. -/
theorem asyncQueue_refines_fifo (started : (queueSystem Tid α size).start source)
    (path : Path (queueSystem Tid α size) source actions state) :
    RingInvariant state.queue ∧
    (∃ fifo, Path (channel (queueCapacity size)) (emptyFifo α (queueCapacity size))
        (actions.flatMap observe) fifo ∧ Refines state.queue fifo) ∧
    acceptedBy actions = poppedBy actions ++ state.queue.contents ∧
    poppedBy actions <+: acceptedBy actions ∧
    (∀ thread ev rc next, rc ≠ 0 → QueueStep state (.pushReturns thread ev rc) next →
      next.queue = state.queue) ∧
    (∀ thread next, QueueStep state (.popReturns thread none) next →
      next.queue = state.queue) ∧
    (∀ action next, QueueStep state action next → ∀ offset < state.queue.count,
      next.queue.buffer ((state.queue.head + offset) % state.queue.size) =
        state.queue.buffer ((state.queue.head + offset) % state.queue.size)) := by
  obtain ⟨fifo, replay, refines⟩ := queueRun_refines started path
  have conserved := queueRun_conserves started path
  refine ⟨refines.ring, ⟨fifo, replay, refines⟩, conserved, ⟨_, conserved.symm⟩, ?_, ?_, ?_⟩
  · intro thread ev rc next failed taken
    generalize result : next.queue = queue
    have effect := taken.effect
    rw [result] at effect
    cases effect with
    | rejected _ => rfl
    | accepted _ _ => exact absurd rfl failed
  · intro thread next taken
    generalize result : next.queue = queue
    have effect := taken.effect
    rw [result] at effect
    cases effect with
    | popFails _ => rfl
  · intro action next taken offset live
    exact taken.effect.keepsLive refines.ring live

end Runs

def slotQueue : AsyncQueue Nat where
  buffer _ := 0
  head := 0
  tail := 0
  size := 1
  count := 0
  shutdown := false

def slotState (queue : AsyncQueue Nat) : QueueState Bool Nat where
  queue
  threads _ := .outside

def slotActions : List (QueueAction Bool Nat) :=
  [.pushReturns true 7 0, .popReturns false (some 7), .pushReturns true 8 0]

def slotFinal : AsyncQueue Nat := ((slotQueue.enqueue 7).dequeue).enqueue 8

theorem slotThreads (thread : Bool) :
    setThread (fun _ => .outside) thread .outside = (fun _ => .outside : Bool → Thread Nat) :=
  Function.update_eq_self _ _

theorem slotPath : Path (queueSystem Bool Nat 1) (slotState slotQueue) slotActions
    (slotState slotFinal) := by
  have signals : ∀ (waits : Thread Nat → Bool) (thread : Bool), waits .outside = false →
      Signals waits (setThread (fun _ => .outside) thread .outside) fun _ => .outside := by
    intro waits thread quiet
    rw [slotThreads]
    exact Or.inr ⟨fun _ => quiet, rfl⟩
  exact .step (.pushAccepted (Or.inl rfl) rfl (signals _ true rfl))
    (.step (.popTakes (Or.inl ⟨rfl, rfl⟩) (signals _ false rfl))
      (.single (.pushAccepted (Or.inl rfl) rfl (signals _ true rfl))))

theorem slotPath_conserves :
    acceptedBy slotActions = poppedBy slotActions ++ slotFinal.contents :=
  (asyncQueue_refines_fifo ⟨⟨fun _ => 0, rfl⟩, fun _ => rfl⟩ slotPath).2.2.1

end BlockchainAuditor
