import BlockchainAuditor.Library.KeyedTextUnique
import BlockchainAuditor.Library.LineReader

/-! Files of newline-terminated lines of any number and lengths, and what a reader with a
bounded buffer and a bounded number of lines gives back of them. -/

namespace LineReader

open CStrings

def fileText (lines : List Bytes) : Bytes := lines.flatMap (· ++ [newline])

structure Plain (line : Bytes) : Prop where
  newlineFree : newline ∉ line
  nulFree : (0 : UInt8) ∉ line

@[simp] theorem fileText_nil : fileText [] = [] := rfl

@[simp] theorem fileText_cons (line : Bytes) (rest : List Bytes) :
    fileText (line :: rest) = line ++ newline :: fileText rest := by
  simp [fileText]

theorem fileText_injective {left right : List Bytes} (plain : ∀ line ∈ left, newline ∉ line)
    (otherPlain : ∀ line ∈ right, newline ∉ line) (same : fileText left = fileText right) :
    left = right := by
  induction left generalizing right with
  | nil =>
      cases right with
      | nil => rfl
      | cons line rest => simp at same
  | cons line rest ih =>
      cases right with
      | nil => simp at same
      | cons other others =>
          rw [fileText_cons, fileText_cons] at same
          obtain ⟨first, later⟩ := KeyedText.split_first (plain line (by simp))
            (otherPlain other (by simp)) same
          rw [first, ih (fun text member => plain text (by simp [member]))
            (fun text member => otherPlain text (by simp [member])) later]

theorem fileText_append (lines others : List Bytes) :
    fileText (lines ++ others) = fileText lines ++ fileText others := List.flatMap_append

/-- The lines behind the first `n` bytes of the file, of which the first may be cut. -/
def linesBehind (n : Nat) : List Bytes → List Bytes
  | [] => []
  | line :: rest =>
    if n ≤ line.length then line.drop n :: rest else linesBehind (n - (line.length + 1)) rest

theorem fileText_linesBehind {n : Nat} {lines : List Bytes} :
    fileText (linesBehind n lines) = (fileText lines).drop n := by
  induction lines generalizing n with
  | nil => simp [linesBehind]
  | cons line rest ih =>
      rw [linesBehind, fileText_cons]
      by_cases inside : n ≤ line.length
      · rw [if_pos inside, fileText_cons, List.drop_append_of_le_length inside]
      · have behind : n - line.length = n - (line.length + 1) + 1 := by omega
        rw [if_neg inside, ih, List.drop_append, @List.drop_of_length_le _ n line (by omega),
          List.nil_append, behind, List.drop_succ_cons]

theorem linesBehind_plain {n : Nat} {lines : List Bytes} (plain : ∀ line ∈ lines, Plain line) :
    ∀ line ∈ linesBehind n lines, Plain line := by
  induction lines generalizing n with
  | nil => simp [linesBehind]
  | cons line rest ih =>
      obtain ⟨first, others⟩ := List.forall_mem_cons.mp plain
      rw [linesBehind]
      by_cases inside : n ≤ line.length
      · rw [if_pos inside]
        refine List.forall_mem_cons.mpr ⟨⟨fun member => ?_, fun member => ?_⟩, others⟩
        · exact first.newlineFree (List.mem_of_mem_drop member)
        · exact first.nulFree (List.mem_of_mem_drop member)
      · rw [if_neg inside]
        exact ih others

theorem takeLine_cut {text : Bytes} {room : Nat} (rest : Bytes) (plain : newline ∉ text)
    (long : room ≤ text.length) :
    takeLine room (text ++ rest) = (text.take room, text.drop room ++ rest) := by
  induction text generalizing room with
  | nil =>
      obtain rfl : room = 0 := by simpa using long
      simp [takeLine]
  | cons byte text ih =>
      cases room with
      | zero => simp [takeLine]
      | succ room =>
          simp only [List.mem_cons, not_or] at plain
          simp only [List.length_cons] at long
          rw [List.cons_append, takeLine, if_neg (Ne.symm plain.1), ih plain.2 (by omega)]
          simp

theorem chomp_plain {text : Bytes} (plain : Plain text) : chomp text = text := by
  have kept : text.takeWhile (· ≠ 0) = text :=
    List.takeWhile_eq_self_iff.mpr (ne_of_excluded plain.nulFree)
  rw [chomp, kept, stripNewline, if_neg]
  intro ends
  obtain ⟨before, rfl⟩ := List.getLast?_eq_some_iff.mp ends
  exact plain.newlineFree (by simp)

variable {size limit : Nat} {line : Bytes} {lines : List Bytes}

theorem readLines_short (plain : Plain line) (fits : line.length + 1 < size) (rest : Bytes) :
    readLines size (limit + 1) (line ++ newline :: rest) = line :: readLines size limit rest := by
  have taken := takeLine_whole rest plain.newlineFree (by omega : line.length < size - 1)
  rw [readLines, fgets, if_neg (by simp), taken]
  dsimp only
  rw [chomp_line plain.nulFree]

theorem readLines_long (plain : Plain line) (long : size ≤ line.length + 1) (rest : Bytes) :
    readLines size (limit + 1) (line ++ newline :: rest) =
      line.take (size - 1) :: readLines size limit (line.drop (size - 1) ++ newline :: rest) := by
  have taken := takeLine_cut (newline :: rest) plain.newlineFree
    (by omega : size - 1 ≤ line.length)
  have front : Plain (line.take (size - 1)) :=
    ⟨fun member => plain.newlineFree (List.mem_of_mem_take member),
      fun member => plain.nulFree (List.mem_of_mem_take member)⟩
  rw [readLines, fgets, if_neg (by simp), taken]
  dsimp only
  rw [chomp_plain front]

theorem forall_set {holds : Bytes → Prop} (all : ∀ line ∈ lines, holds line) {index : Nat}
    {replaced : Bytes} (one : holds replaced) : ∀ line ∈ lines.set index replaced, holds line := by
  intro line member
  rcases List.mem_or_eq_of_mem_set member with kept | rfl
  · exact all line kept
  · exact one

/-! Files that are read back line by line. A line that exactly fills the buffer leaves its
newline for an empty line of its own, which only the limit can hide. -/

def ReadBack (size : Nat) : Nat → List Bytes → Prop
  | _, [] => True
  | 0, _ :: _ => False
  | limit + 1, line :: rest =>
    (line.length + 1 < size ∧ ReadBack size limit rest) ∨
      (line.length + 1 = size ∧ rest = List.replicate limit [])

theorem readLines_newline (large : 1 < size) (rest : Bytes) :
    readLines size (limit + 1) (newline :: rest) = [] :: readLines size limit rest := by
  have plain : Plain [] := ⟨by simp, by simp⟩
  exact readLines_short plain large rest

theorem readLines_behind (large : 1 < size) :
    readLines size limit (newline :: fileText lines) = lines ↔
      lines = List.replicate limit [] := by
  induction lines generalizing limit with
  | nil =>
      cases limit with
      | zero => simp [readLines]
      | succ limit => simp [readLines_newline large, List.replicate_succ]
  | cons line rest ih =>
      cases limit with
      | zero => simp [readLines]
      | succ limit =>
          rw [readLines_newline large, List.replicate_succ, fileText_cons]
          constructor
          · intro same
            obtain ⟨rfl, later⟩ := List.cons.inj same
            rw [ih.mp later]
          · intro same
            obtain ⟨rfl, empty⟩ := List.cons.inj same
            exact congrArg (List.cons []) (ih.mpr empty)

theorem readLines_fileText_iff (large : 1 < size) (plain : ∀ line ∈ lines, Plain line) :
    readLines size limit (fileText lines) = lines ↔ ReadBack size limit lines := by
  induction lines generalizing limit with
  | nil => cases limit <;> simp [readLines, fgets, ReadBack]
  | cons line rest ih =>
      have first := plain line (by simp)
      have others := fun text member => plain text (List.mem_cons_of_mem line member)
      cases limit with
      | zero => simp [readLines, ReadBack]
      | succ limit =>
          rw [fileText_cons, ReadBack]
          by_cases fits : line.length + 1 < size
          · rw [readLines_short first fits]
            simp only [List.cons.injEq, true_and, fits, ih others]
            constructor
            · exact Or.inl
            · rintro (later | ⟨full, _⟩)
              · exact later
              · omega
          · rw [readLines_long first (by omega)]
            by_cases full : line.length + 1 = size
            · rw [List.take_of_length_le (by omega), List.drop_of_length_le (by omega),
                List.nil_append]
              simp [full, readLines_behind large]
            · constructor
              · intro same
                have cut := congrArg List.length (List.cons.inj same).1
                rw [List.length_take] at cut
                omega
              · rintro (⟨short, _⟩ | ⟨whole, _⟩)
                · exact absurd short fits
                · exact absurd whole full

theorem ReadBack.length_le (readBack : ReadBack size limit lines) (member : line ∈ lines) :
    line.length ≤ size - 1 := by
  induction lines generalizing limit with
  | nil => simp at member
  | cons first rest ih =>
      cases limit with
      | zero => exact readBack.elim
      | succ limit =>
          rcases List.mem_cons.mp member with rfl | inRest
          · rcases readBack with ⟨fits, _⟩ | ⟨full, _⟩
            · omega
            · omega
          · rcases readBack with ⟨_, later⟩ | ⟨_, empty⟩
            · exact ih later inRest
            · rw [empty] at inRest
              simp [List.eq_of_mem_replicate inRest]

theorem readBack_of_short (short : ∀ line ∈ lines, line.length + 1 < size)
    (few : lines.length ≤ limit) : ReadBack size limit lines := by
  induction lines generalizing limit with
  | nil => cases limit <;> trivial
  | cons line rest ih =>
      obtain ⟨fits, others⟩ := List.forall_mem_cons.mp short
      cases limit with
      | zero => simp at few
      | succ limit => exact Or.inl ⟨fits, ih others (by simpa using few)⟩

theorem readLines_behind_agree (large : 1 < size) {index : Nat} {read : Bytes}
    (agree : ∀ earlier < index,
      (readLines size limit (newline :: fileText lines))[earlier]? = lines[earlier]?)
    (here : (readLines size limit (newline :: fileText lines))[index]? = some read) :
    read = [] := by
  induction index generalizing limit lines with
  | zero =>
      cases limit with
      | zero => simp [readLines] at here
      | succ limit =>
          rw [readLines_newline large] at here
          simpa using here.symm
  | succ index ih =>
      cases limit with
      | zero => simp [readLines] at here
      | succ limit =>
          have first := agree 0 (by omega)
          rw [readLines_newline large, List.getElem?_cons_zero] at first
          cases lines with
          | nil => simp at first
          | cons line rest =>
              obtain rfl : [] = line := by simpa using first
              rw [readLines_newline large, fileText_cons] at here
              refine ih (fun earlier below => ?_) here
              have same := agree (earlier + 1) (by omega)
              rwa [readLines_newline large, fileText_cons] at same

theorem readLines_agree (large : 1 < size) (plain : ∀ line ∈ lines, Plain line) {index : Nat}
    {read : Bytes}
    (agree : ∀ earlier < index,
      (readLines size limit (fileText lines))[earlier]? = lines[earlier]?)
    (here : (readLines size limit (fileText lines))[index]? = some read) (visible : read ≠ []) :
    ∃ line, lines[index]? = some line ∧ read = line.take (size - 1) := by
  induction index generalizing limit lines with
  | zero =>
      cases limit with
      | zero => simp [readLines] at here
      | succ limit =>
          cases lines with
          | nil => simp [readLines, fgets] at here
          | cons line rest =>
              have first := plain line (by simp)
              refine ⟨line, rfl, ?_⟩
              rw [fileText_cons] at here
              by_cases fits : line.length + 1 < size
              · rw [readLines_short first fits] at here
                rw [List.take_of_length_le (by omega)]
                simpa using here.symm
              · rw [readLines_long first (by omega)] at here
                simpa using here.symm
  | succ index ih =>
      cases limit with
      | zero => simp [readLines] at here
      | succ limit =>
          cases lines with
          | nil => simp [readLines, fgets] at here
          | cons line rest =>
              have first := plain line (by simp)
              have others := fun text member => plain text (List.mem_cons_of_mem line member)
              rw [fileText_cons] at here agree
              by_cases fits : line.length + 1 < size
              · rw [readLines_short first fits] at here agree
                refine ih others (fun earlier below => ?_) here
                exact agree (earlier + 1) (by omega)
              · rw [readLines_long first (by omega)] at here agree
                have whole : line.take (size - 1) = line := by
                  have same := agree 0 (by omega)
                  simpa using same
                have short := congrArg List.length whole
                rw [List.length_take] at short
                have none : line.drop (size - 1) = [] := List.drop_of_length_le (by omega)
                rw [none, List.nil_append] at here agree
                exact absurd (readLines_behind_agree large
                  (fun earlier below => agree (earlier + 1) (by omega)) here) visible

end LineReader
