import BlockchainAuditor.Library.Places
import BlockchainAuditor.QueueThreads

/-! Signals of `queue.c` that wake one thread at a time are enough: whoever waits while
there is something to do is outnumbered by the threads that are already woken. -/

namespace BlockchainAuditor

open Transitions Places

variable {α Tid : Type}

def Thread.isWokenNotFull : Thread α → Bool
  | .wokenNotFull _ => true
  | _ => false

def Thread.isWokenNotEmpty : Thread α → Bool
  | .wokenNotEmpty => true
  | _ => false

/-- When a thread waits, as many threads are woken and have not run yet as steps are possible. -/
def Covered (waits woken : Thread α → Bool) (possible : Nat) (threads : Tid → Thread α) : Prop :=
  (∃ thread, waits (threads thread) = true) → (possible : ℕ∞) ≤ Places.count woken threads

structure NoLostWakeup (state : QueueState Tid α) : Prop where
  consumers : Covered Thread.waitsNotEmpty Thread.isWokenNotEmpty state.queue.count state.threads
  producers : Covered Thread.waitsNotFull Thread.isWokenNotFull
    (state.queue.size - state.queue.count) state.threads

section Covering

variable {waits woken : Thread α → Bool} {possible : Nat} {threads after : Tid → Thread α}

theorem covered_zero : Covered waits woken 0 threads := by
  intro _
  simp

theorem covered_le {fewer : Nat} (atMost : fewer ≤ possible)
    (covered : Covered waits woken possible threads) : Covered waits woken fewer threads :=
  fun waiting => (Nat.cast_le.mpr atMost).trans (covered waiting)

theorem covered_congr (sameWaits : ∀ thread, waits (after thread) = waits (threads thread))
    (sameWoken : ∀ thread, woken (after thread) = woken (threads thread))
    (covered : Covered waits woken possible threads) : Covered waits woken possible after := by
  rintro ⟨thread, waiting⟩
  rw [count_congr sameWoken]
  exact covered ⟨thread, (sameWaits thread).symm.trans waiting⟩

variable [DecidableEq Tid] {thread : Tid} {place : Thread α}

theorem waits_update (idle : waits place = false)
    (waiting : ∃ other, waits (setThread threads thread place other) = true) :
    ∃ other, other ≠ thread ∧ waits (threads other) = true := by
  obtain ⟨other, waitsHere⟩ := waiting
  by_cases own : other = thread
  · subst own
    rw [setThread_self, idle] at waitsHere
    cases waitsHere
  · rw [setThread_other _ _ own] at waitsHere
    exact ⟨other, own, waitsHere⟩

theorem covered_update (idle : waits place = false)
    (same : woken place = woken (threads thread)) (covered : Covered waits woken possible threads) :
    Covered waits woken possible (setThread threads thread place) := by
  intro waiting
  obtain ⟨other, _, waitsHere⟩ := waits_update idle waiting
  rw [setThread, count_update_same same]
  exact covered ⟨other, waitsHere⟩

theorem covered_uses (idle : waits place = false)
    (covered : Covered waits woken (possible + 1) threads) :
    Covered waits woken possible (setThread threads thread place) := by
  intro waiting
  obtain ⟨other, _, waitsHere⟩ := waits_update idle waiting
  have before : ((possible + 1 : ℕ) : ℕ∞) ≤ Places.count woken threads := covered ⟨other, waitsHere⟩
  have left := before.trans (count_update_leave threads thread place)
  rw [Nat.cast_add, Nat.cast_one] at left
  exact (ENat.add_le_add_iff_right ENat.one_ne_top).mp left

theorem covered_signals (wakes : ∀ place, waits place = true →
      woken place = false ∧ woken place.wake = true)
    (covered : Covered waits woken possible threads) (signals : Signals waits threads after) :
    Covered waits woken (possible + 1) after := by
  rintro ⟨other, stillWaits⟩
  rcases signals with ⟨signalled, waiting, rfl⟩ | ⟨nobody, rfl⟩
  · obtain ⟨asleep, awake⟩ := wakes _ waiting
    rw [setThread, count_update_enter asleep awake, Nat.cast_add, Nat.cast_one]
    exact add_le_add_left (covered ⟨signalled, waiting⟩) 1
  · simp [nobody other] at stillWaits

theorem covered_other {others : Thread α → Bool}
    (apart : ∀ place, others place = true → waits place.wake = waits place ∧
      woken place.wake = woken place)
    (signals : Signals others threads after) (covered : Covered waits woken possible threads) :
    Covered waits woken possible after := by
  rcases signals with ⟨signalled, waiting, rfl⟩ | ⟨_, rfl⟩
  · obtain ⟨sameWaits, sameWoken⟩ := apart _ waiting
    refine covered_congr (fun other => ?_) (fun other => ?_) covered
    · by_cases own : other = signalled
      · subst own
        rw [setThread_self, sameWaits]
      · rw [setThread_other _ _ own]
    · by_cases own : other = signalled
      · subst own
        rw [setThread_self, sameWoken]
      · rw [setThread_other _ _ own]
  · exact covered

end Covering

theorem queuePush_waits {queue : AsyncQueue α} {ev : α} (waits : queuePush queue ev = none) :
    queue.size ≤ queue.count := by
  unfold queuePush at waits
  split at waits
  · rename_i full
    exact full.1
  · split at waits <;> cases waits

theorem queuePop_waits {queue : AsyncQueue α} (waits : queuePop queue = none) :
    queue.count = 0 := by
  unfold queuePop at waits
  split at waits
  · rename_i empty
    exact empty.1
  · cases waits

theorem pushing_notEmpty {place : Thread α} {ev : α}
    (entered : place = .outside ∨ place = .wokenNotFull ev) : place.isWokenNotEmpty = false := by
  rcases entered with rfl | rfl
  · rfl
  · rfl

theorem popping_notFull {place : Thread α} (entered : place = .outside ∨ place = .wokenNotEmpty) :
    place.isWokenNotFull = false := by
  rcases entered with rfl | rfl
  · rfl
  · rfl

theorem parked_notEmpty (place : Thread α) (parked : place.parked = true) :
    place.isWokenNotEmpty = false := by
  cases place <;>
    simp_all [Thread.parked, Thread.waitsNotFull, Thread.waitsNotEmpty, Thread.isWokenNotEmpty]

theorem parked_notFull (place : Thread α) (parked : place.parked = true) :
    place.isWokenNotFull = false := by
  cases place <;>
    simp_all [Thread.parked, Thread.waitsNotFull, Thread.waitsNotEmpty, Thread.isWokenNotFull]

theorem parked_nobody {kind : Thread α → Bool} {threads : Tid → Thread α}
    (parked : ∀ thread, (threads thread).parked = true)
    (apart : ∀ place : Thread α, place.parked = true → kind place = false) :
    Places.count kind threads = 0 := by
  simp [Places.count, apart _ (parked _)]

theorem notEmpty_wakes (place : Thread α) (waits : place.waitsNotEmpty = true) :
    place.isWokenNotEmpty = false ∧ place.wake.isWokenNotEmpty = true := by
  cases place <;> simp_all [Thread.waitsNotEmpty, Thread.isWokenNotEmpty, Thread.wake]

theorem notFull_wakes (place : Thread α) (waits : place.waitsNotFull = true) :
    place.isWokenNotFull = false ∧ place.wake.isWokenNotFull = true := by
  cases place <;> simp_all [Thread.waitsNotFull, Thread.isWokenNotFull, Thread.wake]

theorem notFull_apart (place : Thread α) (waits : place.waitsNotFull = true) :
    place.wake.waitsNotEmpty = place.waitsNotEmpty ∧
      place.wake.isWokenNotEmpty = place.isWokenNotEmpty := by
  cases place <;>
    simp_all [Thread.waitsNotFull, Thread.waitsNotEmpty, Thread.isWokenNotEmpty, Thread.wake]

theorem notEmpty_apart (place : Thread α) (waits : place.waitsNotEmpty = true) :
    place.wake.waitsNotFull = place.waitsNotFull ∧
      place.wake.isWokenNotFull = place.isWokenNotFull := by
  cases place <;>
    simp_all [Thread.waitsNotEmpty, Thread.waitsNotFull, Thread.isWokenNotFull, Thread.wake]

structure WakeInvariant (state : QueueState Tid α) : Prop where
  covered : state.queue.shutdown = false → NoLostWakeup state
  unparked : state.queue.shutdown = true → ∀ thread, (state.threads thread).parked = false

/-- Everybody sleeps although the call of one of them could go on. -/
def Stalled (state : QueueState Tid α) : Prop :=
  (∀ thread, (state.threads thread).parked = true) ∧
    ((∃ thread ev, state.threads thread = .waitingNotFull ev ∧ queuePush state.queue ev ≠ none) ∨
      ∃ thread timeoutMs, state.threads thread = .waitingNotEmpty timeoutMs ∧
        queuePop state.queue ≠ none)

theorem not_stalled (invariant : WakeInvariant state) : ¬Stalled state := by
  rintro ⟨parked, possible⟩
  have opened : state.queue.shutdown = false := by
    by_contra shut
    have someone : ∃ thread, (state.threads thread).parked = true := by
      rcases possible with ⟨thread, _⟩ | ⟨thread, _⟩ <;> exact ⟨thread, parked thread⟩
    obtain ⟨thread, asleep⟩ := someone
    rw [invariant.unparked (by simpa using shut) thread] at asleep
    cases asleep
  have covered := invariant.covered opened
  rcases possible with ⟨thread, ev, waits, pushes⟩ | ⟨thread, timeoutMs, waits, pops⟩
  · have few := covered.producers ⟨thread, by rw [waits]; rfl⟩
    rw [parked_nobody parked parked_notFull] at few
    have none : state.queue.size - state.queue.count = 0 :=
      Nat.cast_eq_zero.mp (nonpos_iff_eq_zero.mp few)
    have full : state.queue.size ≤ state.queue.count := Nat.sub_eq_zero_iff_le.mp none
    exact pushes (by rw [queuePush_eq, if_neg (by simp [opened]), if_pos full])
  · have few := covered.consumers ⟨thread, by rw [waits]; rfl⟩
    rw [parked_nobody parked parked_notEmpty] at few
    have empty : state.queue.count = 0 := by simpa using few
    exact pops (by rw [queuePop, if_pos ⟨empty, opened⟩])

section Steps

variable [DecidableEq Tid] {state next : QueueState Tid α} {action : QueueAction Tid α}

theorem woken_wake (place : Thread α) :
    place.wake.waitsNotEmpty = false ∧ place.wake.waitsNotFull = false := by
  cases place <;> exact ⟨rfl, rfl⟩

theorem covered_wakes {waits woken : Thread α → Bool} {possible : Nat} {threads : Tid → Thread α}
    {thread : Tid} (idle : waits (threads thread).wake = false)
    (kept : woken (threads thread) = true → woken (threads thread).wake = true)
    (covered : Covered waits woken possible threads) :
    Covered waits woken possible (setThread threads thread (threads thread).wake) := by
  intro waiting
  obtain ⟨other, _, waitsHere⟩ := waits_update idle waiting
  refine (covered ⟨other, waitsHere⟩).trans ?_
  cases before : woken (threads thread) with
  | true => rw [setThread, count_update_same ((kept before).trans before.symm)]
  | false =>
      cases after : woken (threads thread).wake with
      | true =>
          rw [setThread, count_update_enter before after]
          exact le_self_add
      | false => rw [setThread, count_update_same (after.trans before.symm)]

theorem consumers_step (covered : Covered Thread.waitsNotEmpty Thread.isWokenNotEmpty
      state.queue.count state.threads) (taken : QueueStep state action next)
    (opened : next.queue.shutdown = false) :
    Covered Thread.waitsNotEmpty Thread.isWokenNotEmpty next.queue.count next.threads := by
  cases taken with
  | pushWaits entered _ => exact covered_update rfl (pushing_notEmpty entered).symm covered
  | @pushRejected thread ev queue entered pushed =>
      have effect : QueueEffect state.queue (.pushReturns thread ev (-1)) queue :=
        QueueStep.effect (.pushRejected entered pushed)
      cases effect with
      | rejected shut => simp [shut] at opened
  | @pushAccepted thread ev queue threads entered pushed signals =>
      have effect : QueueEffect state.queue (.pushReturns thread ev 0) queue :=
        QueueStep.effect (.pushAccepted entered pushed signals)
      have moved : Covered Thread.waitsNotEmpty Thread.isWokenNotEmpty state.queue.count
          (setThread state.threads thread .outside) :=
        covered_update rfl (pushing_notEmpty entered).symm covered
      cases effect with
      | accepted _ _ => exact covered_signals notEmpty_wakes moved signals
  | popWaits _ waits =>
      change Covered _ _ state.queue.count _
      rw [queuePop_waits waits]
      exact covered_zero
  | @popFails thread queue returned =>
      have effect : QueueEffect state.queue (.popReturns thread none) queue :=
        QueueStep.effect (.popFails returned)
      cases effect with
      | popFails failing =>
          rcases failing with shut | empty
          · simp [shut] at opened
          · change Covered _ _ state.queue.count _
            rw [empty]
            exact covered_zero
  | @popTakes thread ev queue threads returned signals =>
      have effect : QueueEffect state.queue (.popReturns thread (some ev)) queue :=
        QueueStep.effect (.popTakes returned signals)
      cases effect with
      | popTakes _ nonempty =>
          have uses : state.queue.count = (state.queue.count - 1) + 1 := by omega
          rw [uses] at covered
          exact covered_other notFull_apart signals (covered_uses rfl covered)
  | wakes waiting =>
      refine covered_wakes (woken_wake _).1 (fun woken => ?_) covered
      cases here : state.threads _ <;> simp_all [Thread.isWokenNotEmpty, Thread.wake]
  | shutdown _ => simp [queueShutdown] at opened
  | count _ => exact covered

theorem producers_step (covered : Covered Thread.waitsNotFull Thread.isWokenNotFull
      (state.queue.size - state.queue.count) state.threads) (taken : QueueStep state action next)
    (opened : next.queue.shutdown = false) :
    Covered Thread.waitsNotFull Thread.isWokenNotFull (next.queue.size - next.queue.count)
      next.threads := by
  cases taken with
  | pushWaits _ waits =>
      change Covered _ _ (state.queue.size - state.queue.count) _
      rw [Nat.sub_eq_zero_of_le (queuePush_waits waits)]
      exact covered_zero
  | @pushRejected thread ev queue entered pushed =>
      have effect : QueueEffect state.queue (.pushReturns thread ev (-1)) queue :=
        QueueStep.effect (.pushRejected entered pushed)
      cases effect with
      | rejected shut => simp [shut] at opened
  | @pushAccepted thread ev queue threads entered pushed signals =>
      have effect : QueueEffect state.queue (.pushReturns thread ev 0) queue :=
        QueueStep.effect (.pushAccepted entered pushed signals)
      cases effect with
      | accepted _ room =>
          have uses : state.queue.size - state.queue.count =
              (state.queue.size - (state.queue.count + 1)) + 1 := by omega
          rw [uses] at covered
          exact covered_other notEmpty_apart signals (covered_uses rfl covered)
  | popWaits outside _ => exact covered_update rfl (by rw [outside]; rfl) covered
  | @popFails thread queue returned =>
      have effect : QueueEffect state.queue (.popReturns thread none) queue :=
        QueueStep.effect (.popFails returned)
      have asleep := popping_notFull (returned.imp And.left And.left)
      cases effect with
      | popFails _ => exact covered_update rfl asleep.symm covered
  | @popTakes thread ev queue threads returned signals =>
      have effect : QueueEffect state.queue (.popReturns thread (some ev)) queue :=
        QueueStep.effect (.popTakes returned signals)
      have asleep := popping_notFull (returned.imp And.left And.left)
      cases effect with
      | popTakes _ nonempty =>
          have moved : Covered Thread.waitsNotFull Thread.isWokenNotFull
              (state.queue.size - state.queue.count) (setThread state.threads thread .outside) :=
            covered_update rfl asleep.symm covered
          exact covered_le (by simp only [AsyncQueue.dequeue]; omega)
            (covered_signals notFull_wakes moved signals)
  | wakes waiting =>
      refine covered_wakes (woken_wake _).2 (fun woken => ?_) covered
      cases here : state.threads _ <;> simp_all [Thread.isWokenNotFull, Thread.wake]
  | shutdown _ => simp [queueShutdown] at opened
  | count _ => exact covered

theorem opened_step (taken : QueueStep state action next) (opened : next.queue.shutdown = false) :
    state.queue.shutdown = false := by
  have effect := taken.effect
  generalize next.queue = after at effect opened
  cases effect with
  | shutdown => simp [queueShutdown] at opened
  | _ => exact opened

theorem wakeInvariant_step (invariant : WakeInvariant state) (taken : QueueStep state action next) :
    WakeInvariant next where
  covered opened :=
    have before := invariant.covered (opened_step taken opened)
    ⟨consumers_step before.consumers taken opened, producers_step before.producers taken opened⟩
  unparked := taken.unparked invariant.unparked

theorem wakeInvariant_reachable {size : Int}
    (reachable : (queueSystem Tid α size).Reachable state) : WakeInvariant state := by
  refine reachable.invariant WakeInvariant ?_ fun _ _ _ before taken => wakeInvariant_step before taken
  rintro source ⟨_, outside⟩
  refine ⟨fun _ => ⟨?_, ?_⟩, fun _ thread => ?_⟩
  · rintro ⟨thread, waits⟩
    simp [outside, Thread.waitsNotEmpty] at waits
  · rintro ⟨thread, waits⟩
    simp [outside, Thread.waitsNotFull] at waits
  · rw [outside]
    rfl

theorem queue_wakeups {size : Int} (reachable : (queueSystem Tid α size).Reachable state) :
    (state.queue.shutdown = false → NoLostWakeup state) ∧
    (state.queue.shutdown = true → ∀ actions next,
      Path (queueSystem Tid α size) state actions next →
        ∀ thread, (next.threads thread).parked = false) ∧
    ¬Stalled state := by
  have invariant := wakeInvariant_reachable reachable
  refine ⟨invariant.covered, fun shut actions next path => ?_, not_stalled invariant⟩
  have later := path.preserves
    (fun state => WakeInvariant state ∧ state.queue.shutdown = true) ?_ ⟨invariant, shut⟩
  · exact later.1.unparked later.2
  · rintro state action next ⟨before, stays⟩ taken
    refine ⟨wakeInvariant_step before taken, ?_⟩
    by_contra opened
    rw [opened_step taken (by simpa using opened)] at stays
    cases stays

end Steps

def consumersWait : Fin 3 → Thread Nat :=
  setThread (setThread (fun _ => .outside) 1 (.waitingNotEmpty 1000)) 2 (.waitingNotEmpty 1000)

def oneWoken : QueueState (Fin 3) Nat where
  queue := slotQueue.enqueue 7
  threads := setThread (setThread consumersWait 0 .outside) 1 .wokenNotEmpty

theorem oneWoken_reachable : (queueSystem (Fin 3) Nat 1).Reachable oneWoken := by
  refine ⟨⟨slotQueue, fun _ => .outside⟩,
    [.popWaits 1 1000, .popWaits 2 1000, .pushReturns 0 7 0], ⟨⟨fun _ => 0, rfl⟩, fun _ => rfl⟩, ?_⟩
  exact .step (.popWaits rfl rfl) (.step (.popWaits rfl rfl)
    (.single (.pushAccepted (Or.inl rfl) rfl (Or.inl ⟨1, rfl, rfl⟩))))

theorem oneWoken_covered : (oneWoken.queue.shutdown = false → NoLostWakeup oneWoken) ∧
    (oneWoken.queue.shutdown = true → ∀ actions next,
      Path (queueSystem (Fin 3) Nat 1) oneWoken actions next →
        ∀ thread, (next.threads thread).parked = false) ∧
    ¬Stalled oneWoken :=
  queue_wakeups oneWoken_reachable

end BlockchainAuditor
