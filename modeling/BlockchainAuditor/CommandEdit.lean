import BlockchainAuditor.LogTampering

/-! A log line with another text between the quotes of its command. -/

namespace BlockchainAuditor

open CStrings CharArray KeyedText

/-- The line around the text of its command, which stands behind the first `"command":"` and ends
at the next quote. -/
structure CommandIn (line front text behind : Bytes) : Prop where
  split : line = front ++ (text ++ quote :: behind)
  place : textAfter (stringKey (ascii "command")) line = some (text ++ quote :: behind)
  quoteFree : quote ∉ text

variable {line front text behind newValue full : Bytes}

theorem findCommand (line : Bytes) :
    findKey line "\"command\":\"" 11 = textAfter (stringKey (ascii "command")) line := by
  have spelled : ascii "\"command\":\"" = stringKey (ascii "command") := by decide
  have length : (stringKey (ascii "command")).length = 11 := by decide
  rw [findKey, textAfter, spelled, length]

theorem ne_quote {text : Bytes} (quoteFree : quote ∉ text) :
    ∀ byte ∈ text, decide (byte ≠ quote) = true := by
  intro byte member
  rw [decide_eq_true_eq]
  rintro rfl
  exact quoteFree member

theorem withCommand_iff : withCommand line newValue = some full ↔
    ∃ front text behind, CommandIn line front text behind ∧
      full = front ++ (newValue ++ quote :: behind) := by
  unfold withCommand
  constructor
  · intro found
    split at found
    · cases found
    · rename_i rest searched
      obtain ⟨front, split⟩ := findKey_suffix searched
      split at found
      · rename_i closed
        obtain ⟨first, others, same⟩ := List.exists_cons_of_ne_nil
          fun empty => dropWhile_quote.mp empty closed
        have stops := List.head?_dropWhile_not (fun byte : UInt8 => decide (byte ≠ quote)) rest
        rw [same] at stops
        obtain rfl : first = quote := by simpa using stops
        have parts : rest = rest.takeWhile (· ≠ quote) ++ quote :: others := by
          rw [← same, List.takeWhile_append_dropWhile]
        refine ⟨front, rest.takeWhile (· ≠ quote), others, ⟨?_, ?_, fun member => ?_⟩, ?_⟩
        · rw [← parts, split]
        · rw [← parts, ← findCommand, searched]
        · simpa using List.mem_takeWhile_imp member
        · obtain rfl := Option.some.inj found
          rw [same, ← split, List.length_append, Nat.add_sub_cancel, List.take_left,
            List.append_assoc]
      · cases found
  · rintro ⟨front, text, behind, inLine, rfl⟩
    rw [findCommand, inLine.place]
    dsimp only
    rw [if_pos (by simp), List.dropWhile_append_of_pos (ne_quote inLine.quoteFree)]
    simp [inLine.split]

def StopsAtQuote {α : Type} (read : Bytes → α) : Prop :=
  ∀ front more other, quote ∈ front → read (front ++ more) = read (front ++ other)

theorem quotedField_stops (limit : Nat) : StopsAtQuote (quotedField limit) := by
  intro front more other inside
  obtain ⟨before, after, rfl, quoteFree⟩ := List.eq_append_cons_of_mem inside
  have stops : ∀ rest, (before ++ quote :: rest).takeWhile (· ≠ quote) = before := by
    intro rest
    rw [List.takeWhile_append_of_pos (ne_quote quoteFree)]
    simp
  simp only [quotedField, List.append_assoc, List.cons_append, stops]

theorem readDigits_stops (overflow : Overflow) (value : Int32) :
    StopsAtQuote fun rest => readDigits overflow (rest ++ [0]) value := by
  intro front more other inside
  induction front generalizing value with
  | nil => simp at inside
  | cons byte front ih =>
      by_cases going : byte ≠ 0 ∧ isDigit byte = true
      · have later : quote ∈ front := by
          refine (List.mem_cons.mp inside).resolve_left ?_
          rintro rfl
          exact absurd going.2 (by decide)
        simp only [List.cons_append, readDigits, if_pos going]
        have next := fun value => ih value later
        simp only [List.append_assoc] at next ⊢
        simp only [next]
      · simp only [List.cons_append, readDigits, if_neg going]

theorem readReturnCode_stops (overflow : Overflow) :
    StopsAtQuote fun rest => readReturnCode overflow (rest ++ [0]) := by
  intro front more other inside
  cases front with
  | nil => simp at inside
  | cons byte front =>
      have digits := readDigits_stops overflow 0
      by_cases sign : byte = minus
      · have later : quote ∈ front := by
          refine (List.mem_cons.mp inside).resolve_left ?_
          rw [sign]
          decide
        have same : readDigits overflow (front ++ more ++ [0]) 0 =
          readDigits overflow (front ++ other ++ [0]) 0 := digits front more other later
        simp only [List.cons_append, readReturnCode, if_pos sign, same]
      · have same := digits (byte :: front) more other inside
        simp only [List.cons_append, readReturnCode, if_neg sign] at same ⊢
        rw [same]

theorem CommandIn.front_eq (inLine : CommandIn line front text behind) :
    ∃ before, front = before ++ stringKey (ascii "command") ∧
      strstr (stringKey (ascii "command")) front = some (stringKey (ascii "command")) := by
  obtain ⟨hit, searched, dropped⟩ := Option.map_eq_some_iff.mp inLine.place
  obtain ⟨⟨rest, rfl⟩, before, split⟩ := strstr_isPrefix searched
  rw [List.drop_left] at dropped
  subst dropped
  have same : front = before ++ stringKey (ascii "command") := by
    rw [inLine.split, ← List.append_assoc] at split
    exact (List.append_cancel_right split).symm
  obtain ⟨found, earlier⟩ := strstr_infix
    (same ▸ List.infix_append_right : stringKey (ascii "command") <:+: front)
  refine ⟨before, same, ?_⟩
  have extended := strstr_append earlier (text ++ quote :: behind)
  rw [← inLine.split, searched] at extended
  rw [earlier, List.append_cancel_right (Option.some.inj extended)]

/-- No key is read elsewhere, and none is made of a text without quotes and the quote behind it. -/
theorem CommandIn.keeps (inLine : CommandIn line front text behind) (quoteFree : quote ∉ newValue)
    (apart : behind.head? ≠ some colon) {key more : Bytes} (searched : SearchKey key)
    (short : more.length ≤ 1)
    (other : ¬quote :: (key ++ quote :: colon :: more) <:+ stringKey (ascii "command") ∧
      ¬stringKey (ascii "command") <:+ quote :: (key ++ quote :: colon :: more))
    {α : Type} {read : Bytes → α} (stops : StopsAtQuote read) (holds : α → Prop)
    (found : ∃ rest, textAfter (quote :: (key ++ quote :: colon :: more)) line = some rest ∧
      holds (read rest)) :
    ∃ rest, textAfter (quote :: (key ++ quote :: colon :: more))
      (front ++ (newValue ++ quote :: behind)) = some rest ∧ holds (read rest) := by
  obtain ⟨before, same, -⟩ := inLine.front_eq
  obtain ⟨rest, place, read⟩ := found
  rw [inLine.split] at place
  cases inFront : strstr (quote :: (key ++ quote :: colon :: more)) front with
  | some hit =>
      obtain ⟨⟨kept, rfl⟩, suffix⟩ := strstr_isPrefix inFront
      have keyLast : stringKey (ascii "command") <:+ front := same ▸ List.suffix_append _ _
      have moved : ∀ following,
          textAfter (quote :: (key ++ quote :: colon :: more)) (front ++ following) =
            some (kept ++ following) := by
        intro following
        rw [textAfter, strstr_append inFront, Option.map_some, List.append_assoc, List.drop_left]
      have stopped : quote ∈ kept := by
        have present : kept ≠ [] := by
          rintro rfl
          rw [List.append_nil] at suffix
          exact (List.suffix_or_suffix_of_suffix suffix keyLast).elim other.1 other.2
        have last : [quote] <:+ front :=
          (by decide : [quote] <:+ stringKey (ascii "command")).trans keyLast
        have inside := List.suffix_of_suffix_length_le last
          ((List.suffix_append _ kept).trans suffix) (List.length_pos_iff.mpr present)
        exact inside.subset (List.mem_singleton_self quote)
      refine ⟨kept ++ (newValue ++ quote :: behind), moved _, ?_⟩
      rw [moved] at place
      obtain rfl := Option.some.inj place
      rwa [stops kept _ (text ++ quote :: behind) stopped]
  | none =>
      have ends : front = before ++ (quote :: (ascii "command" ++ [quote])) ++ [colon, quote] := by
        rw [same, List.append_assoc]
        rfl
      have absent := strstr_eq_none_iff.mp inFront
      rw [ends] at absent place ⊢
      have moved : ∀ piece, quote ∉ piece → textAfter (quote :: (key ++ quote :: colon :: more))
          (before ++ (quote :: (ascii "command" ++ [quote])) ++ [colon, quote] ++
            (piece ++ quote :: behind)) =
          textAfter (quote :: (key ++ quote :: colon :: more)) (quote :: behind) := by
        intro piece plain
        rw [textAfter, strstr_between searched short plain apart absent, textAfter]
      rw [moved text inLine.quoteFree] at place
      exact ⟨rest, by rw [moved newValue quoteFree, place], read⟩

theorem CommandIn.edited (inLine : CommandIn line front text behind) :
    textAfter (stringKey (ascii "command")) (front ++ (newValue ++ quote :: behind)) =
      some (newValue ++ quote :: behind) := by
  obtain ⟨-, -, found⟩ := inLine.front_eq
  rw [textAfter, strstr_append found, Option.map_some, List.drop_left]

theorem CommandIn.accepts_edited (inLine : CommandIn line front text behind)
    (quoteFree : quote ∉ newValue) (apart : behind.head? ≠ some colon) {overflow : Overflow}
    {ev : AuditEvent} (accepts : Accepts overflow line ev) :
    Accepts overflow (front ++ (newValue ++ quote :: behind))
      { ev with
        command := .ofStr ((unescape (newValue ++ quote :: behind)).take (commandMax - 1)) } := by
  have string : ∀ (key : Bytes) {size limit : Nat} {field : CharArray size},
      (quote ∉ key ∧ comma ∉ key ∧ colon ∉ key) ∧ ¬stringKey key <:+ stringKey (ascii "command") ∧
        ¬stringKey (ascii "command") <:+ stringKey key →
      (∃ rest, textAfter (stringKey key) line = some rest ∧ field = .ofStr (quotedField limit rest)) →
      ∃ rest, textAfter (stringKey key) (front ++ (newValue ++ quote :: behind)) = some rest ∧
        field = .ofStr (quotedField limit rest) := by
    rintro key size limit field ⟨⟨noQuote, noComma, noColon⟩, other⟩ found
    have single : [quote].length ≤ 1 := by decide
    exact inLine.keeps quoteFree apart ⟨noQuote, noComma, noColon⟩ single other
      (quotedField_stops limit) (fun text => field = .ofStr text) found
  have number : ∀ (key : Bytes) {read : Bytes → Option Int32} {value : Int32},
      (quote ∉ key ∧ comma ∉ key ∧ colon ∉ key) ∧ ¬numberKey key <:+ stringKey (ascii "command") ∧
        ¬stringKey (ascii "command") <:+ numberKey key → StopsAtQuote read →
      (∃ rest, textAfter (numberKey key) line = some rest ∧ read rest = some value) →
      ∃ rest, textAfter (numberKey key) (front ++ (newValue ++ quote :: behind)) = some rest ∧
        read rest = some value := by
    rintro key read value ⟨⟨noQuote, noComma, noColon⟩, other⟩ stops found
    have empty : ([] : Bytes).length ≤ 1 := by decide
    exact inLine.keeps quoteFree apart ⟨noQuote, noComma, noColon⟩ empty other stops
      (fun result => result = some value) found
  exact {
    eventType := string (ascii "event_type") (by decide) accepts.eventType
    command := ⟨_, inLine.edited, rfl⟩
    user := string (ascii "user") (by decide) accepts.user
    pid := number (ascii "pid") (by decide) (readDigits_stops overflow 0) accepts.pid
    cwd := string (ascii "cwd") (by decide) accepts.cwd
    timestamp := string (ascii "timestamp") (by decide) accepts.timestamp
    returnCode := number (ascii "return_code") (by decide) (readReturnCode_stops overflow)
      accepts.returnCode
    hash := string (ascii "hash") (by decide) accepts.hash }

end BlockchainAuditor
