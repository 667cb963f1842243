import BlockchainAuditor.QueueRefinement

/-! What a critical section does to the threads: its own thread goes where the outcome
says, and another thread is at most woken. -/

namespace BlockchainAuditor

open Transitions

variable {α Tid : Type}

def QueueAction.thread : QueueAction Tid α → Tid
  | .pushWaits thread _ => thread
  | .pushReturns thread _ _ => thread
  | .popWaits thread _ => thread
  | .popReturns thread _ => thread
  | .wakes thread => thread
  | .shutdown thread => thread
  | .count thread _ => thread

def QueueAction.place : QueueAction Tid α → Thread α → Thread α
  | .pushWaits _ ev, _ => .waitingNotFull ev
  | .popWaits _ timeoutMs, _ => .waitingNotEmpty timeoutMs
  | .wakes _, place => place.wake
  | _, _ => .outside

def Thread.parked (place : Thread α) : Bool := place.waitsNotFull || place.waitsNotEmpty

@[simp] theorem wake_parked (place : Thread α) : place.wake.parked = false := by
  cases place <;> rfl

@[simp] theorem wake_outside : (Thread.outside : Thread α).wake = .outside := rfl

theorem QueueEffect.closes {queue after : AsyncQueue α} {action : QueueAction Tid α}
    (effect : QueueEffect queue action after) (closed : after.shutdown = true) :
    queue.shutdown = true ∨ ∃ thread, action = .shutdown thread := by
  cases effect with
  | shutdown => exact Or.inr ⟨_, rfl⟩
  | _ => exact Or.inl closed

section Steps

variable [DecidableEq Tid] {state next : QueueState Tid α} {action : QueueAction Tid α}

theorem setThread_self (threads : Tid → Thread α) (thread : Tid) (place : Thread α) :
    setThread threads thread place thread = place :=
  Function.update_self _ _ _

theorem setThread_other (threads : Tid → Thread α) {thread other : Tid} (place : Thread α)
    (different : other ≠ thread) : setThread threads thread place other = threads other :=
  Function.update_of_ne different _ _

theorem Signals.place {waits : Thread α → Bool} {threads after : Tid → Thread α}
    (signals : Signals waits threads after) (thread : Tid) :
    after thread = threads thread ∨ after thread = (threads thread).wake := by
  rcases signals with ⟨woken, _, rfl⟩ | ⟨_, rfl⟩
  · by_cases same : thread = woken
    · subst same
      exact Or.inr (setThread_self _ _ _)
    · exact Or.inl (setThread_other _ _ same)
  · exact Or.inl rfl

theorem signals_exists (waits : Thread α → Bool) (threads : Tid → Thread α) :
    ∃ after, Signals waits threads after := by
  by_cases waiting : ∃ thread, waits (threads thread) = true
  · obtain ⟨thread, waitsHere⟩ := waiting
    exact ⟨_, Or.inl ⟨thread, waitsHere, rfl⟩⟩
  · exact ⟨threads, Or.inr ⟨fun thread => by simpa using fun here => waiting ⟨thread, here⟩, rfl⟩⟩

theorem QueueStep.own (taken : QueueStep state action next) :
    next.threads action.thread = action.place (state.threads action.thread) := by
  cases taken with
  | pushWaits _ _ => exact setThread_self _ _ _
  | pushRejected _ _ => exact setThread_self _ _ _
  | pushAccepted _ _ signals =>
      rcases signals.place _ with kept | woken
      · exact kept.trans (setThread_self _ _ _)
      · exact woken.trans (congrArg Thread.wake (setThread_self _ _ _))
  | popWaits _ _ => exact setThread_self _ _ _
  | popFails _ => exact setThread_self _ _ _
  | popTakes _ signals =>
      rcases signals.place _ with kept | woken
      · exact kept.trans (setThread_self _ _ _)
      · exact woken.trans (congrArg Thread.wake (setThread_self _ _ _))
  | wakes _ => exact setThread_self _ _ _
  | shutdown outside => simp [broadcast, QueueAction.thread, QueueAction.place, outside]
  | count outside => exact outside

theorem QueueStep.others (taken : QueueStep state action next) {thread : Tid}
    (different : thread ≠ action.thread) :
    next.threads thread = state.threads thread ∨
      next.threads thread = (state.threads thread).wake := by
  cases taken with
  | pushWaits _ _ => exact Or.inl (setThread_other _ _ different)
  | pushRejected _ _ => exact Or.inl (setThread_other _ _ different)
  | pushAccepted _ _ signals =>
      rw [← setThread_other state.threads .outside different]
      exact signals.place thread
  | popWaits _ _ => exact Or.inl (setThread_other _ _ different)
  | popFails _ => exact Or.inl (setThread_other _ _ different)
  | popTakes _ signals =>
      rw [← setThread_other state.threads .outside different]
      exact signals.place thread
  | wakes _ => exact Or.inl (setThread_other _ _ different)
  | shutdown _ => exact Or.inr rfl
  | count _ => exact Or.inl rfl

theorem QueueStep.outside (taken : QueueStep state action next) {thread : Tid}
    (different : thread ≠ action.thread) (outside : state.threads thread = .outside) :
    next.threads thread = .outside := by
  rcases taken.others different with kept | woken
  · rw [kept, outside]
  · rw [woken, outside, wake_outside]

theorem QueueStep.parks (taken : QueueStep state action next) {thread : Tid}
    (parked : (next.threads thread).parked = true) :
    (state.threads thread).parked = true ∨ state.queue.shutdown = false := by
  by_cases own : thread = action.thread
  · subst own
    rw [taken.own] at parked
    have effect := taken.effect
    generalize next.queue = queue at effect
    cases effect with
    | pushWaits opened _ => exact Or.inr opened
    | popWaits opened _ => exact Or.inr opened
    | wakes => simp [QueueAction.place] at parked
    | _ => simp [QueueAction.place, Thread.parked, Thread.waitsNotFull, Thread.waitsNotEmpty] at parked
  · rcases taken.others own with kept | woken
    · exact Or.inl (kept ▸ parked)
    · simp [woken] at parked

theorem QueueStep.unparked (taken : QueueStep state action next)
    (unparked : state.queue.shutdown = true → ∀ thread, (state.threads thread).parked = false)
    (closed : next.queue.shutdown = true) (thread : Tid) :
    (next.threads thread).parked = false := by
  rcases taken.effect.closes closed with wasClosed | ⟨closer, rfl⟩
  · by_contra stillParked
    rcases taken.parks (by simpa using stillParked) with before | opened
    · simp [unparked wasClosed thread] at before
    · simp [wasClosed] at opened
  · cases taken with
    | shutdown _ => exact wake_parked _

end Steps

end BlockchainAuditor
