import Mathlib.Data.List.Basic

/-! Sequences that hold each item of another sequence one or more times, up to a limit,
in the order of that sequence. -/

namespace Repetitions

variable {Item : Type} {limit : Nat}

inductive Repeats (limit : Nat) : List Item → List Item → Prop
  | nil : Repeats limit [] []
  | cons {item count items copies} : 0 < count → count ≤ limit → Repeats limit items copies →
      Repeats limit (item :: items) (List.replicate count item ++ copies)

theorem Repeats.single {item : Item} {count : Nat} (positive : 0 < count) (within : count ≤ limit) :
    Repeats limit [item] (List.replicate count item) := by
  have one : Repeats limit [item] (List.replicate count item ++ []) :=
    .cons positive within .nil
  rwa [List.append_nil] at one

theorem Repeats.append {first second copies others : List Item} (left : Repeats limit first copies)
    (right : Repeats limit second others) : Repeats limit (first ++ second) (copies ++ others) := by
  induction left with
  | nil => exact right
  | cons positive within _ ih =>
      rw [List.append_assoc]
      exact .cons positive within ih

theorem Repeats.mem_iff {items copies : List Item} (repeats : Repeats limit items copies)
    {item : Item} : item ∈ copies ↔ item ∈ items := by
  induction repeats with
  | nil => rfl
  | cons positive _ _ ih =>
      rw [List.mem_append, List.mem_cons, ih, List.mem_replicate]
      have some : _ ≠ 0 := Nat.ne_of_gt positive
      simp [some]

theorem Repeats.length {items copies : List Item} (repeats : Repeats limit items copies) :
    items.length ≤ copies.length ∧ copies.length ≤ limit * items.length := by
  induction repeats with
  | nil => simp
  | cons positive within _ ih =>
      obtain ⟨lower, upper⟩ := ih
      simp only [List.length_append, List.length_replicate, List.length_cons, Nat.mul_add,
        Nat.mul_one]
      omega

theorem Repeats.once {items copies : List Item} (repeats : Repeats 1 items copies) :
    copies = items := by
  induction repeats with
  | nil => rfl
  | @cons item count items copies positive within _ ih =>
      obtain rfl : count = 1 := by omega
      rw [ih]
      rfl

end Repetitions
