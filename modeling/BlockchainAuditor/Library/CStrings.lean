import Mathlib.Data.List.Basic
import Mathlib.Data.List.TakeWhile

/-! NUL-terminated strings in fixed-size `char` arrays, and the C library calls
that copy, format, search and compare them. -/

namespace CStrings

abbrev Bytes := List UInt8

def ascii (text : String) : Bytes := text.toList.map fun c => c.toNat.toUInt8

structure CharArray (size : Nat) where
  cells : Bytes
  length_eq : cells.length = size
  deriving DecidableEq

variable {size : Nat}

theorem ne_of_excluded {text : Bytes} {byte : UInt8} (excluded : byte ∉ text) :
    ∀ other ∈ text, decide (other ≠ byte) = true := by
  intro other member
  apply decide_eq_true
  rintro rfl
  exact excluded member

namespace CharArray

/-- The string an array holds: its bytes before the first NUL. -/
def str (array : CharArray size) : Bytes := array.cells.takeWhile (· ≠ 0)

def Terminated (array : CharArray size) : Prop := 0 ∈ array.cells

instance (array : CharArray size) : Decidable array.Terminated :=
  inferInstanceAs (Decidable (0 ∈ array.cells))

def ofStr (text : Bytes) : CharArray size :=
  ⟨(text ++ List.replicate size 0).take size, by simp⟩

def zero : CharArray size := ofStr []

/-- `array[index] = byte`, or nothing when the index is outside the array. -/
def write (array : CharArray size) (index : Nat) (byte : UInt8) : Option (CharArray size) :=
  if index < size then some ⟨array.cells.set index byte, by simp [array.length_eq]⟩ else none

/-- `strncpy` from the memory at `source`: NULs fill the rest of the `count` bytes,
and no NUL follows a string of `count` bytes or more. -/
def strncpy (array : CharArray size) (source : Bytes) (count : Nat) : Option (CharArray size) :=
  if bound : count ≤ size then
    some ⟨(source.takeWhile (· ≠ 0) ++ List.replicate count 0).take count ++
      array.cells.drop count, by simp [array.length_eq]; omega⟩
  else none

theorem ext_cells {left right : CharArray size} (same : left.cells = right.cells) :
    left = right := by
  cases left
  cases right
  simpa using same

theorem str_nulFree (array : CharArray size) : (0 : UInt8) ∉ array.str := by
  intro member
  have kept := List.mem_takeWhile_imp member
  simp at kept

theorem str_length_lt {array : CharArray size} (terminated : array.Terminated) :
    array.str.length < size := by
  have shorter : array.str.length ≤ array.cells.length :=
    (List.takeWhile_prefix _).length_le
  rw [array.length_eq] at shorter
  rcases Nat.lt_or_eq_of_le shorter with below | full
  · exact below
  · have whole : array.str = array.cells :=
      (List.takeWhile_prefix _).eq_of_length (by rw [array.length_eq]; exact full)
    have nulFree := array.str_nulFree
    rw [whole] at nulFree
    exact absurd terminated nulFree

theorem ofStr_cells {text : Bytes} (fits : text.length ≤ size) :
    (ofStr text : CharArray size).cells = text ++ List.replicate (size - text.length) 0 := by
  simp [ofStr, List.take_append, List.take_of_length_le fits]

theorem ofStr_str {text : Bytes} (nulFree : (0 : UInt8) ∉ text) (fits : text.length ≤ size) :
    (ofStr text : CharArray size).str = text := by
  have kept := ne_of_excluded nulFree
  rw [str, ofStr_cells fits, List.takeWhile_append_of_pos kept, List.takeWhile_replicate]
  simp

theorem ofStr_str_prefix {text : Bytes} (fits : text.length ≤ size) :
    (ofStr text : CharArray size).str <+: text := by
  rw [str, ofStr_cells fits]
  generalize size - text.length = room
  clear fits
  induction text with
  | nil => simp
  | cons byte text ih =>
      by_cases ends : byte = 0
      · simp [ends]
      · simpa [ends] using ih

theorem ofStr_excludes {text : Bytes} (fits : text.length ≤ size) {byte : UInt8}
    (excluded : byte ∉ text) : byte ∉ (ofStr text : CharArray size).str := by
  have piece : (ofStr text : CharArray size).str <+: text := ofStr_str_prefix fits
  exact fun member => excluded (piece.subset member)

theorem ofStr_terminated {text : Bytes} (fits : text.length < size) :
    (ofStr text : CharArray size).Terminated := by
  rw [Terminated, ofStr_cells (by omega)]
  simp
  omega

theorem write_ofStr {text : Bytes} (fits : text.length < size) (byte : UInt8) :
    (ofStr text : CharArray size).write text.length byte = some (ofStr (text ++ [byte])) := by
  rw [write, if_pos fits]
  congr 1
  apply ext_cells
  obtain ⟨rest, split⟩ : ∃ rest, size - text.length = rest + 1 := ⟨size - text.length - 1, by omega⟩
  have after : size - (text ++ [byte]).length = rest := by simp; omega
  change (ofStr text).cells.set text.length byte = _
  rw [ofStr_cells (by omega : text.length ≤ size), ofStr_cells (by simp; omega), split, after]
  simp [List.replicate_succ]

theorem write_ofStr_nul {text : Bytes} (fits : text.length < size) :
    (ofStr text : CharArray size).write text.length 0 = some (ofStr text) := by
  rw [write, if_pos fits]
  congr 1
  apply ext_cells
  obtain ⟨rest, split⟩ : ∃ rest, size - text.length = rest + 1 := ⟨size - text.length - 1, by omega⟩
  simp only [ofStr_cells (by omega : text.length ≤ size), split]
  simp [List.replicate_succ]

theorem strncpy_cells (array : CharArray size) (source : Bytes) {count : Nat}
    (bound : count ≤ size) : ∃ copied, array.strncpy source count = some copied ∧
      copied.cells = (source.takeWhile (· ≠ 0) ++ List.replicate count 0).take count ++
        array.cells.drop count :=
  ⟨_, dif_pos bound, rfl⟩

end CharArray

def snprintf (size : Nat) (text : Bytes) : Bytes := text.take (size - 1)

theorem snprintf_fits {size : Nat} {text : Bytes} (fits : text.length < size) :
    snprintf size text = text :=
  List.take_of_length_le (by omega)

theorem append_cut {text : Bytes} {limit : Nat} (fits : text.length ≤ limit) (added : Bytes) :
    text ++ added.take (limit - text.length) = (text ++ added).take limit := by
  rw [List.take_append, List.take_of_length_le fits]

theorem cut_append (text tail : Bytes) (limit : Nat) :
    (text.take limit ++ tail).take limit = (text ++ tail).take limit := by
  rw [List.take_append, List.take_append, List.take_take, Nat.min_self, List.length_take]
  by_cases short : text.length ≤ limit
  · rw [Nat.min_eq_right short]
  · rw [Nat.min_eq_left (by omega), show limit - text.length = 0 by omega, Nat.sub_self]

def strstr (pattern : Bytes) : Bytes → Option Bytes
  | [] => if pattern = [] then some [] else none
  | byte :: rest =>
    if pattern.isPrefixOf (byte :: rest) then some (byte :: rest) else strstr pattern rest

/-- Whether `strcmp` of the strings at two places returns 0; nothing when it reads
past the end of an array that holds no NUL. -/
def strcmpZero : Bytes → Bytes → Option Bool
  | [], _ => none
  | _, [] => none
  | left :: lefts, right :: rights =>
    if left ≠ right then some false
    else if left = 0 then some true else strcmpZero lefts rights

theorem strcmpZero_strings {left right : Bytes} (leftFree : (0 : UInt8) ∉ left)
    (rightFree : (0 : UInt8) ∉ right) (rest following : Bytes) :
    strcmpZero (left ++ 0 :: rest) (right ++ 0 :: following) = some (decide (left = right)) := by
  induction left generalizing right with
  | nil =>
      cases right with
      | nil => simp [strcmpZero]
      | cons byte right =>
          simp only [List.mem_cons, not_or] at rightFree
          simp [strcmpZero, rightFree.1]
  | cons byte left ih =>
      simp only [List.mem_cons, not_or] at leftFree
      cases right with
      | nil => simp [strcmpZero, Ne.symm leftFree.1]
      | cons other right =>
          simp only [List.mem_cons, not_or] at rightFree
          by_cases same : byte = other
          · subst same
            simp [strcmpZero, Ne.symm leftFree.1, ih leftFree.2 rightFree.2]
          · simp [strcmpZero, same]

theorem strcmpZero_unended {left right : Bytes} {byte : UInt8} (leftFree : (0 : UInt8) ∉ left)
    (sameLength : left.length = right.length) (visible : byte ≠ 0) :
    strcmpZero (left ++ [0]) (right ++ [byte]) = some false := by
  induction left generalizing right with
  | nil =>
      obtain rfl : right = [] := List.length_eq_zero_iff.mp sameLength.symm
      simp [strcmpZero, Ne.symm visible]
  | cons first left ih =>
      simp only [List.mem_cons, not_or] at leftFree
      cases right with
      | nil => simp at sameLength
      | cons other right =>
          by_cases same : first = other
          · subst same
            simp only [List.length_cons, Nat.add_right_cancel_iff] at sameLength
            simp [strcmpZero, Ne.symm leftFree.1, ih leftFree.2 sameLength]
          · simp [strcmpZero, same]

theorem strstr_isPrefix {pattern text found : Bytes} (hit : strstr pattern text = some found) :
    pattern <+: found ∧ found <:+ text := by
  induction text with
  | nil =>
      by_cases empty : pattern = []
      · simp only [strstr, empty, ↓reduceIte, Option.some.injEq] at hit
        simp [← hit, empty]
      · simp [strstr, empty] at hit
  | cons byte rest ih =>
      rw [strstr] at hit
      split at hit
      · rename_i here
        simp only [Option.some.injEq] at hit
        subst found
        exact ⟨List.isPrefixOf_iff_prefix.mp here, List.suffix_refl _⟩
      · obtain ⟨starts, suffix⟩ := ih hit
        exact ⟨starts, suffix.trans (List.suffix_cons _ _)⟩

theorem strstr_here {pattern text : Bytes} (starts : pattern <+: text) :
    strstr pattern text = some text := by
  cases text with
  | nil => simp [strstr, List.prefix_nil.mp starts]
  | cons byte rest => rw [strstr, if_pos (List.isPrefixOf_iff_prefix.mpr starts)]

theorem strstr_skip {pattern rest : Bytes} {byte : UInt8} (misses : ¬pattern <+: byte :: rest) :
    strstr pattern (byte :: rest) = strstr pattern rest := by
  rw [strstr, if_neg (by simpa [List.isPrefixOf_iff_prefix] using misses)]

theorem strstr_skips {pattern front rest : Bytes}
    (misses : ∀ back, back ≠ [] → back <:+ front → ¬pattern <+: back ++ rest) :
    strstr pattern (front ++ rest) = strstr pattern rest := by
  induction front with
  | nil => rfl
  | cons byte front ih =>
      have here : ¬pattern <+: byte :: (front ++ rest) :=
        misses (byte :: front) (by simp) (List.suffix_refl _)
      rw [List.cons_append, strstr_skip here]
      exact ih fun back nonempty suffix =>
        misses back nonempty (suffix.trans (List.suffix_cons byte front))

theorem strstr_infix {pattern text : Bytes} (inside : pattern <:+: text) :
    ∃ found, strstr pattern text = some found := by
  induction text with
  | nil => exact ⟨[], strstr_here (List.infix_nil.mp inside ▸ List.prefix_rfl)⟩
  | cons byte rest ih =>
      by_cases starts : pattern <+: byte :: rest
      · exact ⟨_, strstr_here starts⟩
      · rw [strstr_skip starts]
        exact ih ((List.infix_cons_iff.mp inside).resolve_left starts)

theorem strstr_eq_none_iff {pattern text : Bytes} : strstr pattern text = none ↔ ¬pattern <:+: text := by
  constructor
  · intro misses inside
    obtain ⟨found, hit⟩ := strstr_infix inside
    simp [misses] at hit
  · intro outside
    cases hit : strstr pattern text with
    | none => rfl
    | some found =>
        obtain ⟨starts, suffix⟩ := strstr_isPrefix hit
        exact absurd (starts.isInfix.trans suffix.isInfix) outside

theorem strstr_first {pattern text found other : Bytes} (hit : strstr pattern text = some found)
    (suffix : other <:+ text) (starts : pattern <+: other) : other.length ≤ found.length := by
  induction text with
  | nil =>
      rw [List.suffix_nil.mp suffix]
      exact Nat.zero_le _
  | cons byte rest ih =>
      by_cases here : pattern <+: byte :: rest
      · rw [strstr_here here] at hit
        obtain rfl := Option.some.inj hit
        exact suffix.length_le
      · rw [strstr_skip here] at hit
        rcases List.suffix_cons_iff.mp suffix with whole | later
        · rw [whole] at starts
          exact absurd starts here
        · exact ih hit later

theorem strstr_eq_some {pattern text found : Bytes} (suffix : found <:+ text)
    (starts : pattern <+: found)
    (first : ∀ other, other <:+ text → pattern <+: other → other.length ≤ found.length) :
    strstr pattern text = some found := by
  obtain ⟨place, hit⟩ := strstr_infix (starts.isInfix.trans suffix.isInfix)
  obtain ⟨placeStarts, placeSuffix⟩ := strstr_isPrefix hit
  have least := strstr_first hit suffix starts
  have inside := List.suffix_of_suffix_length_le suffix placeSuffix least
  rw [hit, inside.eq_of_length (Nat.le_antisymm least (first place placeSuffix placeStarts))]

theorem prefix_append_cases {pattern front place : Bytes} (starts : pattern <+: front ++ place) :
    pattern <+: front ∨ ∃ rest, pattern = front ++ rest ∧ rest <+: place ∧ rest ≠ [] := by
  rcases List.prefix_or_prefix_of_prefix starts (List.prefix_append front place) with inside | longer
  · exact Or.inl inside
  · obtain ⟨rest, rfl⟩ := longer
    by_cases empty : rest = []
    · exact Or.inl (by simp [empty])
    · exact Or.inr ⟨rest, rfl, (List.prefix_append_right_inj front).mp starts, empty⟩

/-- The search stops at a place whose occurrence no earlier one overlaps. -/
theorem strstr_append_iff {pattern front place : Bytes} (nonempty : pattern ≠ [])
    (starts : pattern <+: place)
    (apart : ∀ back, back ≠ [] → pattern <+: back ++ place → pattern <+: back) :
    strstr pattern (front ++ place) = some place ↔ ¬pattern <:+: front := by
  constructor
  · intro hit inside
    obtain ⟨back, earlier, suffix⟩ := List.infix_iff_prefix_suffix.mp inside
    have bound := strstr_first hit (List.suffix_append_self_iff.mpr suffix)
      (earlier.trans (List.prefix_append back place))
    rw [List.length_append] at bound
    obtain rfl : back = [] := List.length_eq_zero_iff.mp (by omega)
    exact nonempty (List.prefix_nil.mp earlier)
  · intro outside
    refine strstr_eq_some (List.suffix_append front place) starts ?_
    intro other suffix earlier
    by_contra longer
    obtain ⟨back, rfl⟩ := List.suffix_of_suffix_length_le (List.suffix_append front place) suffix
      (by omega)
    have present : back ≠ [] := by
      rintro rfl
      simp at longer
    have inside := List.suffix_append_self_iff.mp suffix
    exact outside ((apart back present earlier).isInfix.trans inside.isInfix)

end CStrings
