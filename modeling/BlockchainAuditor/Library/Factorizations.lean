import Mathlib.Data.List.Basic

/-! Words cut into equally many pieces: two ways to cut one word have a third one in
common, whose cuts lie at or behind those of both. -/

namespace Factorizations

variable {α : Type}

/-- The pieces on the right, behind the first word, are a cut of the word that the pieces on
the left make, and none of its cuts lies in front of theirs. -/
def Behind : List α → List (List α) → List (List α) → Prop
  | start, [], [] => start = []
  | start, piece :: pieces, other :: others =>
    ∃ moved, piece ++ moved = start ++ other ∧ Behind moved pieces others
  | _, _, _ => False

inductive Extends : List (List α) → List (List α) → List (List α) → Prop
  | nil : Extends [] [] []
  | cons {left right piece lefts rights pieces} : left <+: piece ∨ right <+: piece →
      Extends lefts rights pieces → Extends (left :: lefts) (right :: rights) (piece :: pieces)

theorem Extends.symm {left right common : List (List α)} (extension : Extends left right common) :
    Extends right left common := by
  induction extension with
  | nil => exact .nil
  | cons starts _ ih => exact .cons starts.symm ih

/-- Two cuts of one word, the second of them behind its first letters, have a cut in common
that is behind both. -/
theorem exists_common {left right : List (List α)} {start : List α}
    (lengths : left.length = right.length) (same : left.flatten = start ++ right.flatten) :
    ∃ common, Behind start left common ∧ Behind [] right common ∧ Extends left right common := by
  obtain ⟨count, counted⟩ : ∃ count, left.length = count := ⟨_, rfl⟩
  -- the two lists change places wherever the later cut does
  induction count generalizing left right start with
  | zero =>
      obtain rfl := List.length_eq_zero_iff.mp counted
      obtain rfl : right = [] := List.length_eq_zero_iff.mp lengths.symm
      have empty : start = [] := by simpa using same.symm
      exact ⟨[], empty, rfl, .nil⟩
  | succ count ih =>
      obtain ⟨piece, pieces, rfl⟩ := List.exists_cons_of_length_eq_add_one counted
      obtain ⟨other, others, rfl⟩ := List.exists_cons_of_length_eq_add_one (lengths ▸ counted)
      simp only [List.length_cons, Nat.add_right_cancel_iff] at lengths counted
      simp only [List.flatten_cons, ← List.append_assoc] at same
      rcases List.append_eq_append_iff.mp same with ⟨moved, whole, rest⟩ | ⟨moved, whole, rest⟩
      · obtain ⟨common, behind, also, extension⟩ := ih lengths rest counted
        exact ⟨other :: common, ⟨moved, whole.symm, behind⟩, ⟨[], by simp, also⟩,
          .cons (Or.inr (List.prefix_refl _)) extension⟩
      · obtain ⟨common, behind, also, extension⟩ := ih lengths.symm rest (lengths ▸ counted)
        exact ⟨(other ++ moved) :: common, ⟨[], by simp [whole], also⟩, ⟨moved, by simp, behind⟩,
          .cons (Or.inr (List.prefix_append _ _)) extension.symm⟩

end Factorizations
