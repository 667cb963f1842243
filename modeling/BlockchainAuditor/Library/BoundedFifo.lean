import Mathlib.Data.List.Basic
import Mathlib.Logic.Function.Basic
import BlockchainAuditor.Library.Transitions

/-! A bounded first-in first-out channel that can be closed, and the ring of
slots that usually implements it. -/

namespace BoundedFifo

open Transitions

structure Fifo (α : Type) where
  items : List α
  capacity : Nat
  closed : Bool

inductive Event (α : Type)
  | push (item : α) (accepted : Bool)
  | pop (item : Option α)
  | close

variable {α : Type}

/-- A push is accepted in an open channel with room and refused in a closed one;
a pop takes the oldest item of an open channel and otherwise comes back empty. -/
inductive Step : Fifo α → Event α → Fifo α → Prop
  | accept {fifo item} : fifo.closed = false → fifo.items.length < fifo.capacity →
      Step fifo (.push item true) { fifo with items := fifo.items ++ [item] }
  | refuse {fifo item} : fifo.closed = true → Step fifo (.push item false) fifo
  | take {fifo item rest} : fifo.closed = false → fifo.items = item :: rest →
      Step fifo (.pop (some item)) { fifo with items := rest }
  | empty {fifo} : fifo.closed = true ∨ fifo.items = [] → Step fifo (.pop none) fifo
  | close {fifo} : Step fifo .close { fifo with closed := true }

def channel (capacity : Nat) : System (Fifo α) (Event α) where
  start fifo := fifo = { items := [], capacity, closed := false }
  step := Step

def Event.pushed? : Event α → Option α
  | .push item true => some item
  | _ => none

def Event.popped? : Event α → Option α
  | .pop item => item
  | _ => none

def pushed (events : List (Event α)) : List α := events.filterMap Event.pushed?

def popped (events : List (Event α)) : List α := events.filterMap Event.popped?

theorem step_conserves {fifo next : Fifo α} {event} (taken : Step fifo event next) :
    fifo.items ++ pushed [event] = popped [event] ++ next.items := by
  cases taken with
  | accept _ _ => simp [pushed, popped, List.filterMap_cons, Event.pushed?, Event.popped?]
  | refuse _ => simp [pushed, popped, List.filterMap_cons, Event.pushed?, Event.popped?]
  | take _ front => simp [pushed, popped, List.filterMap_cons, Event.pushed?, Event.popped?, front]
  | empty _ => simp [pushed, popped, List.filterMap_cons, Event.pushed?, Event.popped?]
  | close => simp [pushed, popped, List.filterMap_cons, Event.pushed?, Event.popped?]

theorem path_conserves {capacity : Nat} {fifo next : Fifo α} {events}
    (path : Path (channel capacity) fifo events next) :
    fifo.items ++ pushed events = popped events ++ next.items := by
  induction path with
  | refl _ => simp [pushed, popped]
  | @step source event middle events target taken _ ih =>
      have first := step_conserves taken
      have pushedSplit : pushed (event :: events) = pushed [event] ++ pushed events := by
        simp only [pushed, ← List.filterMap_append, List.singleton_append]
      have poppedSplit : popped (event :: events) = popped [event] ++ popped events := by
        simp only [popped, ← List.filterMap_append, List.singleton_append]
      rw [pushedSplit, poppedSplit, ← List.append_assoc, first, List.append_assoc, ih,
        List.append_assoc]

def window (slots : Nat → α) (size head count : Nat) : List α :=
  (List.range count).map fun offset => slots ((head + offset) % size)

@[simp] theorem window_length (slots : Nat → α) (size head count : Nat) :
    (window slots size head count).length = count := by
  simp [window]

theorem ring_offset_ne {size head offset other : Nat} (below : offset < other)
    (room : other < size) : (head + offset) % size ≠ (head + other) % size := by
  intro same
  have divides : size ∣ (head + other) - (head + offset) :=
    Nat.dvd_of_mod_eq_zero (Nat.sub_mod_eq_zero_of_mod_eq same.symm)
  have positive : 0 < (head + other) - (head + offset) := by omega
  have atMost := Nat.le_of_dvd positive divides
  omega

theorem window_write {slots : Nat → α} {size head count : Nat} (item : α)
    (room : count < size) :
    window (Function.update slots ((head + count) % size) item) size head (count + 1) =
      window slots size head count ++ [item] := by
  simp only [window, List.range_succ, List.map_append, List.map_cons, List.map_nil,
    Function.update_self]
  congr 1
  apply List.map_congr_left
  intro offset member
  have below : offset < count := List.mem_range.mp member
  exact Function.update_of_ne (ring_offset_ne below room) _ _

theorem window_advance {slots : Nat → α} {size head count : Nat} (inRing : head < size)
    (nonempty : 0 < count) :
    window slots size head count =
      slots head :: window slots size ((head + 1) % size) (count - 1) := by
  obtain ⟨rest, rfl⟩ : ∃ rest, count = rest + 1 := ⟨count - 1, by omega⟩
  simp only [window, List.range_succ_eq_map, List.map_cons, List.map_map, Nat.add_zero,
    Nat.mod_eq_of_lt inRing, Nat.add_sub_cancel]
  congr 1
  apply List.map_congr_left
  intro offset _
  simp only [Function.comp, Nat.mod_add_mod]
  congr 2
  omega

end BoundedFifo
