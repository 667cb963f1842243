import Mathlib.Data.Set.Card
import Mathlib.Logic.Function.Basic

/-! How many of arbitrarily many threads are at a place of some kind. -/

namespace Places

variable {Tid Place : Type}

noncomputable def count (kind : Place → Bool) (threads : Tid → Place) : ℕ∞ :=
  {thread | kind (threads thread) = true}.encard

theorem count_congr {kind : Place → Bool} {threads after : Tid → Place}
    (same : ∀ thread, kind (after thread) = kind (threads thread)) :
    count kind after = count kind threads := by
  simp only [count, same]

section Updates

variable [DecidableEq Tid] {kind : Place → Bool} {threads : Tid → Place} {thread : Tid}
  {place : Place}

theorem count_update_same (same : kind place = kind (threads thread)) :
    count kind (Function.update threads thread place) = count kind threads := by
  refine count_congr fun other => ?_
  by_cases own : other = thread
  · subst own
    rw [Function.update_self, same]
  · rw [Function.update_of_ne own]

theorem count_update_enter (outside : kind (threads thread) = false) (inside : kind place = true) :
    count kind (Function.update threads thread place) = count kind threads + 1 := by
  have entered : {other | kind (Function.update threads thread place other) = true} =
      insert thread {other | kind (threads other) = true} := by
    ext other
    by_cases own : other = thread
    · subst own
      simp [inside]
    · simp [own]
  rw [count, entered, Set.encard_insert_of_notMem (by simp [outside]), count]

theorem count_update_leave (threads : Tid → Place) (thread : Tid) (place : Place) :
    count kind threads ≤ count kind (Function.update threads thread place) + 1 := by
  have left : {other | kind (threads other) = true} ⊆
      insert thread {other | kind (Function.update threads thread place other) = true} := by
    intro other inside
    by_cases own : other = thread
    · exact Or.inl own
    · right
      change kind (Function.update threads thread place other) = true
      rw [Function.update_of_ne own]
      exact inside
  exact (Set.encard_le_encard left).trans (Set.encard_insert_le _ _)

end Updates

end Places
