import BlockchainAuditor.Library.CStrings
import Mathlib.Data.List.TakeDrop

/-! Writes into `char` arrays and copies between them, none of them outside an array, and
arrays that end in a NUL whatever is written in front of it. -/

namespace CStrings

section Completes

variable {α β : Type} {call : Option α} {next : α → Option β} {post : α → Prop} {after : β → Prop}

/-- The call makes no access outside an array, and its result is as described. -/
def Completes (call : Option α) (post : α → Prop) : Prop := ∃ result, call = some result ∧ post result

theorem completes_some {result : α} (holds : post result) : Completes (some result) post :=
  ⟨result, rfl, holds⟩

theorem completes_pure {result : α} (holds : post result) : Completes (pure result) post :=
  completes_some holds

theorem Completes.bind (first : Completes call post)
    (second : ∀ result, post result → Completes (next result) after) :
    Completes (call >>= next) after := by
  obtain ⟨result, called, holds⟩ := first
  rw [called]
  exact second result holds

theorem Completes.mono {weaker : α → Prop} (completes : Completes call post)
    (weakens : ∀ result, post result → weaker result) : Completes call weaker := by
  obtain ⟨result, called, holds⟩ := completes
  exact ⟨result, called, weakens result holds⟩

theorem Completes.and {other : α → Prop} (completes : Completes call post)
    (holds : ∀ result, call = some result → other result) :
    Completes call fun result => post result ∧ other result := by
  obtain ⟨result, called, kept⟩ := completes
  exact ⟨result, called, kept, holds result called⟩

theorem Completes.holds (completes : Completes call post) {result : α} (called : call = some result) :
    post result := by
  obtain ⟨other, alsoCalled, holds⟩ := completes
  rw [called] at alsoCalled
  obtain rfl := Option.some.inj alsoCalled
  exact holds

end Completes

def cString (text : Bytes) : Bytes := text ++ [0]

variable {size : Nat}

namespace CharArray

def overwrite (array : CharArray size) (index : Nat) (bytes : Bytes) : Option (CharArray size) :=
  if bound : index + bytes.length ≤ size then
    some ⟨array.cells.take index ++ bytes ++ array.cells.drop (index + bytes.length), by
      simp [array.length_eq]
      omega⟩
  else none

/-- `strncpy` from the memory at `source` up to the end of its array. -/
def copyFrom (array : CharArray size) (source : Bytes) (count : Nat) : Option (CharArray size) :=
  if 0 ∈ source ∨ count ≤ source.length then array.strncpy source count else none

def print (array : CharArray size) (bufSize : Nat) (text : Bytes) : Option (CharArray size) :=
  if bufSize = 0 then some array else array.overwrite 0 (cString (snprintf bufSize text))

def readStr (array : CharArray size) : Option Bytes :=
  if array.Terminated then some array.str else none

def strcat (array : CharArray size) (text : Bytes) : Option (CharArray size) := do
  array.overwrite (← array.readStr).length (cString text)

def strncat (array : CharArray size) (text : Bytes) (count : Nat) : Option (CharArray size) := do
  array.overwrite (← array.readStr).length (cString (text.take count))

def Ended (array : CharArray size) : Prop := array.cells[size - 1]? = some 0

instance (array : CharArray size) : Decidable array.Ended :=
  inferInstanceAs (Decidable (array.cells[size - 1]? = some 0))

variable {array : CharArray size}

theorem Ended.terminated (ended : array.Ended) : array.Terminated := List.mem_of_getElem? ended

theorem Ended.readStr_eq (ended : array.Ended) : array.readStr = some array.str :=
  if_pos ended.terminated

theorem Ended.readStr (ended : array.Ended) :
    Completes array.readStr fun text => text = array.str :=
  ⟨_, ended.readStr_eq, rfl⟩

theorem last_cell (array : CharArray size) (positive : 0 < size) :
    ∃ byte, array.cells.drop (size - 1) = [byte] ∧ (array.Ended ↔ byte = 0) := by
  have length := array.length_eq
  have inside : size - 1 < array.cells.length := by omega
  refine ⟨array.cells[size - 1], ?_, ?_⟩
  · rw [List.drop_eq_getElem_cons inside, List.drop_of_length_le (by omega)]
  · rw [Ended, List.getElem?_eq_getElem inside, Option.some.injEq]

theorem zero_ended (positive : 0 < size) : (zero : CharArray size).Ended := by
  have cells : (zero : CharArray size).cells = List.replicate size 0 := by
    rw [zero, ofStr_cells (by simp)]
    simp
  rw [Ended, cells, List.getElem?_replicate, if_pos (by omega)]

theorem overwrite_completes {index : Nat} {bytes : Bytes} (fits : index + bytes.length ≤ size) :
    Completes (array.overwrite index bytes) fun written =>
      written.cells = array.cells.take index ++ bytes ++ array.cells.drop (index + bytes.length) :=
  ⟨_, dif_pos fits, rfl⟩

theorem write_completes {index : Nat} (inside : index < size) (byte : UInt8) :
    Completes (array.write index byte) fun written => written.cells = array.cells.set index byte :=
  ⟨_, if_pos inside, rfl⟩

theorem write_behind {text : Bytes} (starts : text <+: array.cells) (room : text.length < size)
    (byte : UInt8) : Completes (array.write text.length byte) fun written =>
      text ++ [byte] <+: written.cells := by
  refine (write_completes room byte).mono fun written cells => ?_
  obtain ⟨rest, split⟩ := starts
  obtain ⟨first, more, rfl⟩ := List.exists_cons_of_length_pos (l := rest) (by
    have length := array.length_eq
    rw [← split, List.length_append] at length
    omega)
  rw [cells, ← split, List.set_append_right _ _ (Nat.le_refl _), Nat.sub_self]
  exact ⟨more, by simp⟩

theorem Ended.write (ended : array.Ended) {index : Nat} {byte : UInt8} (inside : index < size)
    (kept : index < size - 1 ∨ byte = 0) :
    Completes (array.write index byte) fun written =>
      written.Ended ∧ written.cells = array.cells.set index byte := by
  refine (write_completes inside byte).mono fun written cells => ⟨?_, cells⟩
  have length := array.length_eq
  rw [Ended, cells, List.getElem?_set]
  split
  · rename_i last
    rw [if_pos (by omega), Option.some.injEq]
    exact kept.resolve_left (by omega)
  · exact ended

theorem Ended.overwrite (ended : array.Ended) {index : Nat} {text : Bytes}
    (fits : index + text.length < size) :
    Completes (array.overwrite index (cString text)) CharArray.Ended := by
  have length : (cString text).length = text.length + 1 := by simp [cString]
  refine (overwrite_completes (by omega)).mono fun written cells => ?_
  have front : (array.cells.take index).length = index := by
    rw [List.length_take, array.length_eq]
    omega
  rw [Ended, cells]
  by_cases last : index + (text.length + 1) = size
  · rw [List.getElem?_append_left (by simp [front, length]; omega),
      List.getElem?_append_right (by omega), cString, List.getElem?_append_right (by omega), front]
    simp [show size - 1 - index - text.length = 0 by omega]
  · rw [List.getElem?_append_right (by simp [front, length]; omega), List.getElem?_drop,
      List.length_append, front, length]
    have same : index + (text.length + 1) + (size - 1 - (index + (text.length + 1))) = size - 1 := by
      omega
    rw [same]
    exact ended

theorem copyFrom_completes {source : Bytes} {count : Nat} (fits : count ≤ size)
    (readable : 0 ∈ source ∨ count ≤ source.length) :
    Completes (array.copyFrom source count) fun copied => copied.cells =
      (source.takeWhile (· ≠ 0) ++ List.replicate count 0).take count ++ array.cells.drop count := by
  obtain ⟨copied, copies, cells⟩ := array.strncpy_cells source fits
  exact ⟨copied, by rw [copyFrom, if_pos readable, copies], cells⟩

theorem Ended.copyFrom (ended : array.Ended) {source : Bytes} {count : Nat} (fits : count < size)
    (readable : 0 ∈ source ∨ count ≤ source.length) :
    Completes (array.copyFrom source count) CharArray.Ended := by
  refine (copyFrom_completes (by omega) readable).mono fun copied cells => ?_
  rw [Ended, cells, List.getElem?_append_right (by simp; omega), List.getElem?_drop]
  have length : ((source.takeWhile (· ≠ 0) ++ List.replicate count 0).take count).length = count := by
    simp
  rw [length, show count + (size - 1 - count) = size - 1 by omega]
  exact ended

theorem Ended.print (ended : array.Ended) (text : Bytes) {bufSize : Nat} (fits : bufSize ≤ size) :
    Completes (array.print bufSize text) CharArray.Ended := by
  unfold CharArray.print
  split
  · exact completes_some ended
  · refine ended.overwrite ?_
    have short := List.length_take_le (bufSize - 1) text
    rw [snprintf]
    omega

theorem Ended.strcat (ended : array.Ended) {text : Bytes}
    (fits : array.str.length + text.length < size) :
    Completes (array.strcat text) CharArray.Ended := by
  rw [CharArray.strcat, ended.readStr_eq]
  exact ended.overwrite fits

end CharArray

theorem cString_readable (text : Bytes) (count : Nat) :
    0 ∈ cString text ∨ count ≤ (cString text).length := Or.inl (by simp [cString])

theorem cells_readable (array : CharArray size) {count : Nat} (fits : count ≤ size) :
    0 ∈ array.cells ∨ count ≤ array.cells.length := Or.inr (by rw [array.length_eq]; exact fits)

/-- No byte but NULs behind a NUL. -/
def Padded (text : Bytes) : Prop := ∀ byte ∈ text.dropWhile (· ≠ 0), byte = 0

theorem padded_prefix_iff {text : Bytes} {count pad : Nat} (enough : count ≤ pad) :
    text.take count <+: text.takeWhile (· ≠ 0) ++ List.replicate pad 0 ↔
      Padded (text.take count) := by
  induction text generalizing count with
  | nil => simp [Padded]
  | cons byte text ih =>
      cases count with
      | zero => simp [Padded]
      | succ count =>
          by_cases visible : byte = 0
          · subst visible
            rw [List.take_succ_cons, List.takeWhile_cons_of_neg (by simp), List.nil_append,
              List.prefix_replicate_iff, Padded, List.dropWhile_cons_of_neg (by simp)]
            simp only [List.length_cons, List.length_take, List.eq_replicate_iff]
            constructor
            · exact fun zeros => zeros.2.2
            · exact fun zeros => ⟨by omega, trivial, zeros⟩
          · rw [List.take_succ_cons, List.takeWhile_cons_of_pos (by simpa), List.cons_append,
              List.prefix_cons_inj, ih (by omega), Padded, Padded,
              List.dropWhile_cons_of_pos (by simpa)]

theorem padded_closed (text : Bytes) : Padded (text ++ [0]) ↔ Padded text := by
  rw [Padded, Padded, List.dropWhile_append]
  split
  · rename_i none
    have nothing := List.isEmpty_iff.mp none
    simp only [nothing, List.not_mem_nil, false_implies, implies_true, iff_true]
    rw [List.dropWhile_cons_of_neg (by simp)]
    simp
  · simp only [List.mem_append, List.mem_singleton]
    constructor
    · exact fun zeros byte member => zeros byte (Or.inl member)
    · rintro zeros byte (member | rfl)
      · exact zeros byte member
      · rfl

theorem takeWhile_closed (text rest : Bytes) :
    (text ++ 0 :: rest).takeWhile (· ≠ 0) = text.takeWhile (· ≠ 0) := by
  induction text with
  | nil => simp
  | cons byte text ih =>
      by_cases ends : byte = 0
      · simp [ends]
      · simpa [ends] using ih

theorem strncpy_string_iff {array copied : CharArray size} (positive : 0 < size) {body rest : Bytes}
    (cells : copied.cells = ((body ++ 0 :: rest).takeWhile (· ≠ 0) ++
      List.replicate (size - 1) 0).take (size - 1) ++ array.cells.drop (size - 1)) :
    body.take (size - 1) ++ [0] <+: copied.cells ↔ Padded (body.take (size - 1)) ∧
      (body.length < size - 1 ∨ array.cells.getLast? = some 0) := by
  rw [cells, takeWhile_closed]
  have front : ((body.takeWhile (· ≠ 0) ++ List.replicate (size - 1) 0).take (size - 1)).length =
      size - 1 := by simp
  by_cases short : body.length < size - 1
  · have whole : (body ++ [0]).take (size - 1) = body ++ [0] :=
      List.take_of_length_le (by simp only [List.length_append, List.length_singleton]; omega)
    rw [List.take_of_length_le (by omega : body.length ≤ size - 1), ← padded_closed, ← whole,
      ← padded_prefix_iff (Nat.le_refl _), takeWhile_closed]
    constructor
    · intro starts
      refine ⟨?_, Or.inl short⟩
      refine (List.prefix_take_iff.mp (List.prefix_of_prefix_length_le starts
        (List.prefix_append _ _) ?_)).1
      rw [front, List.length_take]
      omega
    · rintro ⟨starts, _⟩
      refine (List.prefix_take_iff.mpr ⟨starts, ?_⟩).trans (List.prefix_append _ _)
      rw [List.length_take]
      omega
  · have length : (body.take (size - 1)).length = size - 1 := by
      rw [List.length_take]
      omega
    have nonempty : array.cells ≠ [] := by
      intro empty
      have length := array.length_eq
      simp [empty] at length
      omega
    have last : array.cells.drop (size - 1) = [array.cells.getLast nonempty] := by
      have dropped := List.drop_length_sub_one nonempty
      rwa [array.length_eq] at dropped
    rw [last, List.getLast?_eq_some_getLast nonempty, Option.some.injEq,
      ← padded_prefix_iff (Nat.le_refl _)]
    constructor
    · rintro ⟨behind, split⟩
      rw [List.append_assoc] at split
      obtain ⟨copied, ended⟩ := List.append_inj split (by rw [length, front])
      refine ⟨?_, Or.inr (List.cons.inj ended).1.symm⟩
      rw [copied]
      exact List.take_prefix _ _
    · rintro ⟨starts, inside | ended⟩
      · exact absurd inside short
      · have same := (List.prefix_take_iff.mpr ⟨starts, length.le⟩).eq_of_length
          (by rw [length, front])
        have whole : body.take (size - 1) ++ [0] = (body.takeWhile (· ≠ 0) ++
            List.replicate (size - 1) 0).take (size - 1) ++ [array.cells.getLast nonempty] := by
          rw [← same, ended]
        exact ⟨[], by rw [whole, List.append_nil]⟩

namespace CharArray

variable {array : CharArray size}

theorem str_eq {text : Bytes} (nulFree : (0 : UInt8) ∉ text) (starts : text ++ [0] <+: array.cells) :
    array.str = text := by
  obtain ⟨rest, cells⟩ := starts
  rw [str, ← cells, List.append_assoc, List.takeWhile_append_of_pos (ne_of_excluded nulFree)]
  simp

theorem Ended.copyMemory (ended : array.Ended) (positive : 0 < size) {text rest : Bytes}
    (nulFree : (0 : UInt8) ∉ text) :
    Completes (array.copyFrom (text ++ 0 :: rest) (size - 1)) fun copied =>
      copied.Ended ∧ copied.str = text.take (size - 1) := by
  have readable : 0 ∈ text ++ 0 :: rest ∨ size - 1 ≤ (text ++ 0 :: rest).length :=
    Or.inl (by simp)
  refine (ended.copyFrom (by omega) readable).and fun copied called => ?_
  have copies : Completes (array.copyFrom (text ++ 0 :: rest) (size - 1)) _ :=
    copyFrom_completes (by omega) readable
  have cells := copies.holds called
  have front : (0 : UInt8) ∉ text.take (size - 1) := fun member =>
    nulFree (List.mem_of_mem_take member)
  have padded : Padded (text.take (size - 1)) := by
    have visible := ne_of_excluded front
    rw [Padded, List.dropWhile_eq_nil_iff.mpr visible]
    simp
  have last : array.cells.getLast? = some 0 := by
    rw [List.getLast?_eq_getElem?, array.length_eq]
    exact ended
  exact str_eq front ((strncpy_string_iff positive cells).mpr ⟨padded, Or.inr last⟩)

theorem Ended.copyString (ended : array.Ended) (positive : 0 < size) {text : Bytes}
    (nulFree : (0 : UInt8) ∉ text) :
    Completes (array.copyFrom (cString text) (size - 1)) fun copied =>
      copied.Ended ∧ copied.str = text.take (size - 1) :=
  ended.copyMemory positive nulFree

theorem Ended.copyPrinted {bufSize : Nat} (ended : array.Ended) (positive : 0 < size)
    (room : size ≤ bufSize) (buffer : CharArray bufSize) {text : Bytes}
    (nulFree : (0 : UInt8) ∉ text) :
    Completes (do array.copyFrom (← buffer.print bufSize text).cells (size - 1)) fun copied =>
      copied.Ended ∧ copied.str = text.take (size - 1) := by
  have fits : 0 + (cString (snprintf bufSize text)).length ≤ bufSize := by
    have short := List.length_take_le (bufSize - 1) text
    simp [cString, snprintf]
    omega
  have printed : Completes (buffer.print bufSize text) fun written =>
      ∃ rest, written.cells = snprintf bufSize text ++ 0 :: rest := by
    rw [CharArray.print, if_neg (by omega)]
    refine (overwrite_completes fits).mono fun written cells => ?_
    refine ⟨buffer.cells.drop (0 + (cString (snprintf bufSize text)).length), ?_⟩
    rw [cells]
    simp [cString]
  refine printed.bind fun written ⟨rest, cells⟩ => ?_
  rw [cells]
  refine (ended.copyMemory positive fun member => nulFree (List.mem_of_mem_take member)).mono
    fun copied ⟨copiedEnded, spelled⟩ => ⟨copiedEnded, ?_⟩
  rw [spelled, List.take_take, Nat.min_eq_left (by omega)]

theorem Ended.strcat_str (ended : array.Ended) {text : Bytes} (nulFree : (0 : UInt8) ∉ text)
    (fits : array.str.length + text.length < size) :
    Completes (array.strcat text) fun joined =>
      joined.Ended ∧ joined.str = array.str ++ text := by
  refine (ended.strcat fits).and fun joined called => ?_
  have length : (cString text).length = text.length + 1 := by simp [cString]
  rw [CharArray.strcat, ended.readStr_eq] at called
  have writes : Completes (array.overwrite array.str.length (cString text)) _ :=
    overwrite_completes (by omega)
  have cells := writes.holds called
  have front : array.cells.take array.str.length = array.str :=
    (List.prefix_iff_eq_take.mp (List.takeWhile_prefix _)).symm
  apply str_eq
  · simp only [List.mem_append, not_or]
    exact ⟨array.str_nulFree, nulFree⟩
  · rw [cells, front, List.append_assoc, List.append_assoc, cString, List.append_assoc]
    exact ⟨_, by simp; rfl⟩

/-- The array starts with a text and its NUL. -/
structure Spells (array : CharArray size) (text : Bytes) : Prop where
  nulFree : (0 : UInt8) ∉ text
  starts : text ++ [0] <+: array.cells

theorem Spells.readStr_eq {text : Bytes} (spells : array.Spells text) :
    array.readStr = some text := by
  rw [readStr, if_pos, str_eq spells.nulFree spells.starts]
  exact spells.starts.subset (by simp)

theorem Spells.length_lt {text : Bytes} (spells : array.Spells text) : text.length < size := by
  have short := spells.starts.length_le
  rw [List.length_append, array.length_eq] at short
  exact short

theorem Spells.strncat {text added : Bytes} (spells : array.Spells text)
    (nulFree : (0 : UInt8) ∉ added) {count : Nat} (fits : text.length + count < size) :
    Completes (array.strncat added count) fun joined => joined.Spells (text ++ added.take count) := by
  have length : (cString (added.take count)).length = (added.take count).length + 1 := by
    simp [cString]
  have short := List.length_take_le count added
  rw [CharArray.strncat, spells.readStr_eq]
  refine (overwrite_completes (by omega)).mono fun joined cells => ⟨?_, ?_⟩
  · simp only [List.mem_append, not_or]
    exact ⟨spells.nulFree, fun member => nulFree (List.mem_of_mem_take member)⟩
  · have front : array.cells.take text.length = text := by
      obtain ⟨rest, whole⟩ := spells.starts
      rw [← whole, List.append_assoc, List.take_left]
    rw [cells, front, cString]
    exact ⟨array.cells.drop (text.length + (added.take count ++ [0]).length), by simp⟩

theorem copyFront {source : Bytes} {count : Nat} (nulFree : (0 : UInt8) ∉ source)
    (inside : count ≤ source.length) (fits : count < size) :
    Completes (do (← array.copyFrom (cString source) count).write count 0) fun copied =>
      copied.Spells (source.take count) := by
  have kept : (cString source).takeWhile (· ≠ 0) = source := by
    rw [cString, List.takeWhile_append_of_pos (ne_of_excluded nulFree)]
    simp
  refine (copyFrom_completes (by omega) (cString_readable _ _)).bind fun copied cells => ?_
  rw [kept, List.take_append_of_le_length inside] at cells
  have length : (source.take count).length = count := List.length_take_of_le inside
  have writes : Completes (copied.write (source.take count).length 0) _ :=
    write_behind ⟨_, cells.symm⟩ (by omega) 0
  rw [length] at writes
  exact writes.mono fun ended closed =>
    ⟨fun member => nulFree (List.mem_of_mem_take member), closed⟩

end CharArray

end CStrings
