import Mathlib.Data.List.Basic
import Mathlib.Logic.Function.Basic

/-! Objects that are created and given back, in memory that never uses an identity twice. -/

namespace Lifetimes

structure Memory (Object : Type) where
  objects : Nat → Option Object
  next : Nat
  fresh : ∀ ref, next ≤ ref → objects ref = none

variable {Object : Type} {memory : Memory Object} {ref other : Nat}

def Memory.empty : Memory Object where
  objects _ := none
  next := 0
  fresh _ _ := rfl

def Memory.create (memory : Memory Object) (object : Object) : Memory Object where
  objects := Function.update memory.objects memory.next (some object)
  next := memory.next + 1
  fresh ref above := by
    rw [Function.update_of_ne (by omega)]
    exact memory.fresh ref (by omega)

def Memory.discard (memory : Memory Object) (ref : Nat) : Memory Object where
  objects := Function.update memory.objects ref none
  next := memory.next
  fresh other above := by
    by_cases own : other = ref
    · rw [own, Function.update_self]
    · rw [Function.update_of_ne own]
      exact memory.fresh other above

def Memory.Live (memory : Memory Object) (ref : Nat) : Prop := (memory.objects ref).isSome

theorem Memory.Live.below (live : memory.Live ref) : ref < memory.next := by
  by_contra above
  simp [Memory.Live, memory.fresh ref (by omega)] at live

@[simp] theorem create_objects (object : Object) :
    (memory.create object).objects memory.next = some object :=
  Function.update_self _ _ _

theorem create_live (object : Object) : (memory.create object).Live memory.next := by
  simp [Memory.Live]

theorem create_keeps {value : Object} (here : memory.objects ref = some value) (object : Object) :
    (memory.create object).objects ref = some value := by
  have below : ref < memory.next := Memory.Live.below (by simp [Memory.Live, here])
  have apart : ref ≠ memory.next := by omega
  rw [← here]
  exact Function.update_of_ne apart _ _

theorem Memory.Live.create (live : memory.Live ref) (object : Object) :
    (memory.create object).Live ref := by
  obtain ⟨value, here⟩ := Option.isSome_iff_exists.mp live
  simp [Memory.Live, create_keeps here object]

theorem discard_dead : ¬(memory.discard ref).Live ref := by
  simp [Memory.Live, Memory.discard]

theorem create_dead {object : Object} (dead : ¬memory.Live ref) (used : ref < memory.next) :
    ¬(memory.create object).Live ref := by
  have apart : ref ≠ memory.next := by omega
  have same : (memory.create object).objects ref = memory.objects ref :=
    Function.update_of_ne apart _ _
  rw [Memory.Live, same]
  exact dead

theorem discard_keepsDead (dead : ¬memory.Live other) : ¬(memory.discard ref).Live other := by
  by_cases own : other = ref
  · rw [own]
    exact discard_dead
  · have same : (memory.discard ref).objects other = memory.objects other :=
      Function.update_of_ne own _ _
    rw [Memory.Live, same]
    exact dead

/-- `free`: nothing for the null pointer, undefined for a block that is not live. -/
def Memory.free (memory : Memory Object) : Option Nat → Option (Memory Object)
  | none => some memory
  | some ref => if (memory.objects ref).isSome then some (memory.discard ref) else none

/-- Each live block has exactly one of the pointers. -/
structure Memory.OwnedBy (memory : Memory Object) (pointers : List (Option Nat)) : Prop where
  distinct : (pointers.filterMap id).Nodup
  live : ∀ ref, memory.Live ref ↔ some ref ∈ pointers

variable {pointers : List (Option Nat)} {pointer : Option Nat}

theorem ownedBy_empty : (Memory.empty : Memory Object).OwnedBy [] where
  distinct := List.nodup_nil
  live ref := by simp [Memory.Live, Memory.empty]

theorem Memory.OwnedBy.null (owned : memory.OwnedBy pointers) :
    memory.OwnedBy (pointers ++ [none]) where
  distinct := by simpa using owned.distinct
  live ref := by simpa using owned.live ref

theorem Memory.OwnedBy.create (owned : memory.OwnedBy pointers) (object : Object) :
    (memory.create object).OwnedBy (pointers ++ [some memory.next]) where
  distinct := by
    have fresh : some memory.next ∉ pointers := by
      intro member
      have below := ((owned.live _).mpr member).below
      omega
    simpa [List.nodup_append] using ⟨owned.distinct, fun ref member same => fresh (same ▸ member)⟩
  live ref := by
    by_cases own : ref = memory.next
    · simp [own, create_live]
    · have same : (memory.create object).objects ref = memory.objects ref :=
        Function.update_of_ne own _ _
      have before := owned.live ref
      rw [Memory.Live] at before
      simpa [Memory.Live, same, own] using before

theorem Memory.OwnedBy.free (owned : memory.OwnedBy (pointer :: pointers)) :
    ∃ after, memory.free pointer = some after ∧ after.OwnedBy pointers := by
  cases pointer with
  | none => exact ⟨memory, rfl, by simpa using owned.distinct, fun ref => by simpa using owned.live ref⟩
  | some ref =>
      have live : memory.Live ref := (owned.live ref).mpr (by simp)
      have distinct := owned.distinct
      simp only [List.filterMap_cons, id, List.nodup_cons] at distinct
      have others : some ref ∉ pointers := fun member =>
        distinct.1 (List.mem_filterMap.mpr ⟨some ref, member, rfl⟩)
      refine ⟨memory.discard ref, if_pos live, distinct.2, fun other => ?_⟩
      by_cases own : other = ref
      · rw [own]
        exact iff_of_false discard_dead others
      · have same : (memory.discard ref).objects other = memory.objects other :=
          Function.update_of_ne own _ _
        have before := owned.live other
        rw [Memory.Live] at before
        simpa [Memory.Live, same, own] using before

end Lifetimes
