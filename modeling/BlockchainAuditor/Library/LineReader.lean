import BlockchainAuditor.Library.CStrings

/-! Text files read line by line into a fixed buffer, with `fgets`. -/

namespace LineReader

open CStrings

def newline : UInt8 := 10

/-- At most `room` bytes of the stream, and none behind a newline, with the rest. -/
def takeLine : Nat → Bytes → Bytes × Bytes
  | 0, stream => ([], stream)
  | _, [] => ([], [])
  | room + 1, byte :: rest =>
    if byte = newline then ([byte], rest)
    else (byte :: (takeLine room rest).1, (takeLine room rest).2)

/-- The string `fgets` leaves in a buffer of `size` bytes, or nothing at the end. -/
def fgets (size : Nat) (stream : Bytes) : Option (Bytes × Bytes) :=
  if stream = [] then none else some (takeLine (size - 1) stream)

def stripNewline (text : Bytes) : Bytes :=
  if text.getLast? = some newline then text.dropLast else text

def chomp (buffer : Bytes) : Bytes := stripNewline (buffer.takeWhile (· ≠ 0))

def readLines (size : Nat) : Nat → Bytes → List Bytes
  | 0, _ => []
  | limit + 1, stream =>
    match fgets size stream with
    | none => []
    | some (buffer, rest) => chomp buffer :: readLines size limit rest

theorem takeLine_whole {text : Bytes} {room : Nat} (rest : Bytes) (plain : newline ∉ text)
    (fits : text.length < room) :
    takeLine room (text ++ newline :: rest) = (text ++ [newline], rest) := by
  induction text generalizing room with
  | nil =>
      obtain ⟨left, rfl⟩ : ∃ left, room = left + 1 := ⟨room - 1, by simp at fits; omega⟩
      simp [takeLine]
  | cons byte text ih =>
      obtain ⟨left, rfl⟩ : ∃ left, room = left + 1 := ⟨room - 1, by simp at fits; omega⟩
      simp only [List.mem_cons, not_or] at plain
      simp only [List.length_cons] at fits
      simp [takeLine, Ne.symm plain.1, ih plain.2 (by omega : text.length < left)]

theorem takeLine_length (room : Nat) (stream : Bytes) : (takeLine room stream).1.length ≤ room := by
  induction stream generalizing room with
  | nil => cases room <;> simp [takeLine]
  | cons byte rest ih =>
      cases room with
      | zero => simp [takeLine]
      | succ room =>
          rw [takeLine]
          split
          · simp
          · simpa using ih room

theorem takeLine_rest (room : Nat) (stream : Bytes) :
    (takeLine room stream).1 ++ (takeLine room stream).2 = stream := by
  induction stream generalizing room with
  | nil => cases room <;> rfl
  | cons byte rest ih =>
      cases room with
      | zero => rfl
      | succ room =>
          rw [takeLine]
          split
          · rfl
          · rw [List.cons_append, ih]

theorem takeLine_shorter {room : Nat} (some : 0 < room) {stream : Bytes} (more : stream ≠ []) :
    (takeLine room stream).2.length < stream.length := by
  obtain ⟨left, rfl⟩ : ∃ left, room = left + 1 := ⟨room - 1, by omega⟩
  obtain ⟨byte, rest, rfl⟩ := List.exists_cons_of_ne_nil more
  have length := congrArg List.length (takeLine_rest left rest)
  rw [List.length_append] at length
  rw [takeLine]
  split
  · simp
  · simp only [List.length_cons]
    omega

theorem takeLine_newline {stream : Bytes} {room : Nat} (text following : Bytes)
    (split : (takeLine room stream).1 = text ++ newline :: following) : following = [] := by
  induction stream generalizing room text with
  | nil =>
      cases room <;> simp [takeLine] at split
  | cons byte rest ih =>
      cases room with
      | zero => simp [takeLine] at split
      | succ room =>
          rw [takeLine] at split
          split at split
          · cases text with
            | nil => exact (List.cons.inj split).2.symm
            | cons _ _ => simp at split
          · rename_i other
            cases text with
            | nil =>
                simp only [List.nil_append, List.cons.injEq] at split
                exact absurd split.1 other
            | cons first text =>
                simp only [List.cons_append, List.cons.injEq] at split
                exact ih text split.2

theorem chomp_line {text : Bytes} (nulFree : (0 : UInt8) ∉ text) :
    chomp (text ++ [newline]) = text := by
  have kept : (text ++ [newline]).takeWhile (· ≠ 0) = text ++ [newline] := by
    rw [List.takeWhile_eq_self_iff]
    intro byte member
    simp only [ne_eq, decide_not, Bool.not_eq_eq_eq_not, Bool.not_true, decide_eq_false_iff_not]
    rintro rfl
    rcases List.mem_append.mp member with inside | last
    · exact nulFree inside
    · simp [newline] at last
  rw [chomp, kept]
  simp [stripNewline]

theorem chomp_newlineFree {stream : Bytes} {room : Nat} :
    newline ∉ chomp (takeLine room stream).1 := by
  have front : (takeLine room stream).1.takeWhile (· ≠ 0) <+: (takeLine room stream).1 :=
    List.takeWhile_prefix _
  obtain ⟨behind, whole⟩ := front
  unfold chomp stripNewline
  generalize (takeLine room stream).1.takeWhile (· ≠ 0) = text at whole ⊢
  intro member
  split at member
  · rename_i ends
    obtain ⟨before, rfl⟩ := List.getLast?_eq_some_iff.mp ends
    rw [List.dropLast_concat] at member
    obtain ⟨early, late, rfl⟩ := List.append_of_mem member
    have last := takeLine_newline early (late ++ [newline] ++ behind) (by rw [← whole]; simp)
    simp at last
  · rename_i continues
    obtain ⟨early, late, rfl⟩ := List.append_of_mem member
    have last := takeLine_newline early (late ++ behind) (by rw [← whole]; simp)
    obtain ⟨rfl, rfl⟩ := List.append_eq_nil_iff.mp last
    simp at continues

theorem readLines_newlineFree {size limit : Nat} {stream line : Bytes}
    (member : line ∈ readLines size limit stream) : newline ∉ line := by
  induction limit generalizing stream with
  | zero => simp [readLines] at member
  | succ limit ih =>
      rw [readLines, fgets] at member
      split at member
      · simp at member
      · rename_i buffer rest read
        split at read
        · simp at read
        · obtain ⟨rfl, rfl⟩ := Prod.mk.inj (Option.some.inj read)
          rcases List.mem_cons.mp member with rfl | later
          · exact chomp_newlineFree
          · exact ih later

theorem chomp_fits (size : Nat) (stream : Bytes) :
    (0 : UInt8) ∉ chomp (takeLine (size - 1) stream).1 ∧
      (chomp (takeLine (size - 1) stream).1).length ≤ size - 1 := by
  have short := takeLine_length (size - 1) stream
  have shorter :=
    (List.takeWhile_prefix (· ≠ (0 : UInt8)) (l := (takeLine (size - 1) stream).1)).length_le
  have visible : (0 : UInt8) ∉ (takeLine (size - 1) stream).1.takeWhile (· ≠ 0) := by
    intro member
    have kept := List.mem_takeWhile_imp member
    simp at kept
  unfold chomp stripNewline
  split
  · refine ⟨fun member => visible (List.dropLast_subset _ member), ?_⟩
    rw [List.length_dropLast]
    omega
  · exact ⟨visible, by omega⟩

theorem readLines_fit {size limit : Nat} {stream line : Bytes}
    (member : line ∈ readLines size limit stream) :
    (0 : UInt8) ∉ line ∧ line.length ≤ size - 1 := by
  induction limit generalizing stream with
  | zero => simp [readLines] at member
  | succ limit ih =>
      rw [readLines, fgets] at member
      split at member
      · simp at member
      · rename_i buffer rest read
        split at read
        · simp at read
        · obtain ⟨rfl, rfl⟩ := Prod.mk.inj (Option.some.inj read)
          rcases List.mem_cons.mp member with rfl | later
          · exact chomp_fits size stream
          · exact ih later

theorem readLines_length (size limit : Nat) (stream : Bytes) :
    (readLines size limit stream).length ≤ limit := by
  induction limit generalizing stream with
  | zero => simp [readLines]
  | succ limit ih =>
      rw [readLines]
      split
      · simp
      · simpa using ih _

theorem readLines_lines {size limit : Nat} {lines : List Bytes}
    (plain : ∀ line ∈ lines, newline ∉ line) (nulFree : ∀ line ∈ lines, (0 : UInt8) ∉ line)
    (fits : ∀ line ∈ lines, line.length + 1 < size) :
    readLines size limit (lines.flatMap (· ++ [newline])) = lines.take limit := by
  induction limit generalizing lines with
  | zero => simp [readLines]
  | succ limit ih =>
      cases lines with
      | nil => simp [readLines, fgets]
      | cons line lines =>
          have room : line.length < size - 1 := by
            have lineFits := fits line (by simp)
            omega
          have taken := takeLine_whole (lines.flatMap (· ++ [newline])) (plain line (by simp)) room
          have read : fgets size ((line :: lines).flatMap (· ++ [newline])) =
              some (line ++ [newline], lines.flatMap (· ++ [newline])) := by
            rw [fgets, if_neg (by simp), ← taken]
            simp
          rw [readLines, read]
          simp only [chomp_line (nulFree line (by simp)), List.take_succ_cons]
          rw [ih (fun other member => plain other (by simp [member]))
            (fun other member => nulFree other (by simp [member]))
            (fun other member => fits other (by simp [member]))]

theorem takeLine_room {room larger : Nat} (atLeast : room ≤ larger) (rest : Bytes) {text : Bytes}
    (fits : text.length < room) :
    takeLine larger (text ++ newline :: rest) = takeLine room (text ++ newline :: rest) := by
  induction text generalizing room larger with
  | nil =>
      obtain ⟨first, rfl⟩ : ∃ first, room = first + 1 := ⟨room - 1, by simp at fits; omega⟩
      obtain ⟨second, rfl⟩ : ∃ second, larger = second + 1 := ⟨larger - 1, by omega⟩
      simp [takeLine]
  | cons byte text ih =>
      obtain ⟨first, rfl⟩ : ∃ first, room = first + 1 := ⟨room - 1, by simp at fits; omega⟩
      obtain ⟨second, rfl⟩ : ∃ second, larger = second + 1 := ⟨larger - 1, by omega⟩
      simp only [List.length_cons] at fits
      rw [List.cons_append, takeLine, takeLine]
      by_cases ends : byte = newline
      · rw [if_pos ends, if_pos ends]
      · rw [if_neg ends, if_neg ends, ih (by omega : first ≤ second) (by omega : text.length < first)]

end LineReader
