import BlockchainAuditor.Library.BoundedFifo

/-! The asynchronous queue of `queue.c`: its ring buffer, the critical sections of
its operations, and the threads that run them in any order. -/

namespace BlockchainAuditor

open Transitions

def queueDefaultSize : Nat := 4096

/-- The mutex and the two condition variables are the critical sections and the
waiting threads of `QueueState` below. -/
structure AsyncQueue (α : Type) where
  buffer : Nat → α
  head : Nat
  tail : Nat
  size : Nat
  count : Nat
  shutdown : Bool

variable {α Tid : Type}

def queueInit (memory : Option (Nat → α)) (size : Int) : Option (AsyncQueue α) :=
  let size := if size ≤ 0 then queueDefaultSize else size.toNat
  match memory with
  | none => none
  | some buffer => some { buffer, head := 0, tail := 0, size, count := 0, shutdown := false }

/-- One turn of `queue_push` with the mutex held: the return value and the queue,
or nothing when the thread waits on `not_full` and will test its loop again. -/
def queuePush (queue : AsyncQueue α) (ev : α) : Option (Int × AsyncQueue α) :=
  if queue.count ≥ queue.size ∧ queue.shutdown = false then none
  else if queue.shutdown then some (-1, queue)
  else some (0, { queue with
    buffer := Function.update queue.buffer queue.tail ev
    tail := (queue.tail + 1) % queue.size
    count := queue.count + 1 })

/-- `queue_pop` behind its wait: `none` is the return value -1. -/
def queuePopResume (queue : AsyncQueue α) : Option α × AsyncQueue α :=
  if queue.count = 0 ∨ queue.shutdown = true then (none, queue)
  else (some (queue.buffer queue.head), { queue with
    head := (queue.head + 1) % queue.size
    count := queue.count - 1 })

/-- `queue_pop` from its entry, or nothing when the thread waits on `not_empty`.
The test before the wait is an `if`: a woken thread goes on with `queuePopResume`. -/
def queuePop (queue : AsyncQueue α) : Option (Option α × AsyncQueue α) :=
  if queue.count = 0 ∧ queue.shutdown = false then none else some (queuePopResume queue)

def queueShutdown (queue : AsyncQueue α) : AsyncQueue α := { queue with shutdown := true }

def queueCount (queue : AsyncQueue α) : Nat := queue.count

inductive Thread (α : Type)
  | outside
  | waitingNotFull (ev : α)
  | wokenNotFull (ev : α)
  | waitingNotEmpty (timeoutMs : Int)
  | wokenNotEmpty

def Thread.waitsNotFull : Thread α → Bool
  | .waitingNotFull _ => true
  | _ => false

def Thread.waitsNotEmpty : Thread α → Bool
  | .waitingNotEmpty _ => true
  | _ => false

def Thread.wake : Thread α → Thread α
  | .waitingNotFull ev => .wokenNotFull ev
  | .waitingNotEmpty _ => .wokenNotEmpty
  | thread => thread

structure QueueState (Tid α : Type) where
  queue : AsyncQueue α
  threads : Tid → Thread α

/-- One critical section, labelled with its thread and its outcome. A wake-up
without a signal is spurious or, for a timed wait, its timeout. -/
inductive QueueAction (Tid α : Type)
  | pushWaits (thread : Tid) (ev : α)
  | pushReturns (thread : Tid) (ev : α) (rc : Int)
  | popWaits (thread : Tid) (timeoutMs : Int)
  | popReturns (thread : Tid) (ev : Option α)
  | wakes (thread : Tid)
  | shutdown (thread : Tid)
  | count (thread : Tid) (value : Nat)

section Threads

variable [DecidableEq Tid]

def setThread (threads : Tid → Thread α) (thread : Tid) (place : Thread α) : Tid → Thread α :=
  Function.update threads thread place

/-- `pthread_cond_signal` wakes one of the threads that wait, if there is one. -/
def Signals (waits : Thread α → Bool) (threads after : Tid → Thread α) : Prop :=
  (∃ thread, waits (threads thread) = true ∧
    after = setThread threads thread (threads thread).wake) ∨
  ((∀ thread, waits (threads thread) = false) ∧ after = threads)

def broadcast (threads : Tid → Thread α) : Tid → Thread α := fun thread => (threads thread).wake

inductive QueueStep : QueueState Tid α → QueueAction Tid α → QueueState Tid α → Prop
  | pushWaits {state thread ev} :
      state.threads thread = .outside ∨ state.threads thread = .wokenNotFull ev →
      queuePush state.queue ev = none →
      QueueStep state (.pushWaits thread ev)
        { state with threads := setThread state.threads thread (.waitingNotFull ev) }
  | pushRejected {state thread ev queue} :
      state.threads thread = .outside ∨ state.threads thread = .wokenNotFull ev →
      queuePush state.queue ev = some (-1, queue) →
      QueueStep state (.pushReturns thread ev (-1))
        { queue, threads := setThread state.threads thread .outside }
  | pushAccepted {state thread ev queue threads} :
      state.threads thread = .outside ∨ state.threads thread = .wokenNotFull ev →
      queuePush state.queue ev = some (0, queue) →
      Signals Thread.waitsNotEmpty (setThread state.threads thread .outside) threads →
      QueueStep state (.pushReturns thread ev 0) { queue, threads }
  | popWaits {state thread timeoutMs} :
      state.threads thread = .outside → queuePop state.queue = none →
      QueueStep state (.popWaits thread timeoutMs)
        { state with threads := setThread state.threads thread (.waitingNotEmpty timeoutMs) }
  | popFails {state thread queue} :
      (state.threads thread = .outside ∧ queuePop state.queue = some (none, queue)) ∨
        (state.threads thread = .wokenNotEmpty ∧ queuePopResume state.queue = (none, queue)) →
      QueueStep state (.popReturns thread none)
        { queue, threads := setThread state.threads thread .outside }
  | popTakes {state thread ev queue threads} :
      (state.threads thread = .outside ∧ queuePop state.queue = some (some ev, queue)) ∨
        (state.threads thread = .wokenNotEmpty ∧ queuePopResume state.queue = (some ev, queue)) →
      Signals Thread.waitsNotFull (setThread state.threads thread .outside) threads →
      QueueStep state (.popReturns thread (some ev)) { queue, threads }
  | wakes {state thread} :
      (state.threads thread).waitsNotFull = true ∨ (state.threads thread).waitsNotEmpty = true →
      QueueStep state (.wakes thread)
        { state with threads := setThread state.threads thread (state.threads thread).wake }
  | shutdown {state thread} : state.threads thread = .outside →
      QueueStep state (.shutdown thread)
        { queue := queueShutdown state.queue, threads := broadcast state.threads }
  | count {state thread} : state.threads thread = .outside →
      QueueStep state (.count thread (queueCount state.queue)) state

def queueSystem (Tid α : Type) [DecidableEq Tid] (size : Int) :
    System (QueueState Tid α) (QueueAction Tid α) where
  start state := (∃ memory, queueInit (some memory) size = some state.queue) ∧
    ∀ thread, state.threads thread = .outside
  step := QueueStep

end Threads

end BlockchainAuditor
