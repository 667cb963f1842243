import BlockchainAuditor.IntegrityCheck
import BlockchainAuditor.LocalLog
import BlockchainAuditor.Library.CArrays
import BlockchainAuditor.Library.LineFiles

/-! `local_log_simulate_tamper` of `log_local.c`, which rewrites the whole log from the lines
that `local_log_read_all` gives. -/

namespace BlockchainAuditor

open CStrings CharArray KeyedText LineReader

/-- The returned number and the log afterwards. `writable` tells whether
`fopen(log_path, "w")` succeeds, and `newLine` is the uninitialised local array. -/
def localLogSimulateTamper (writable : Bool) (newLine : CharArray lineBufferSize)
    (log : Option Bytes) (line : Int) (newValue : Bytes) : Option (Int × Option Bytes) := do
  let lines := localLogReadAll log
  if line < 0 ∨ lines.length ≤ line then return (-1, log)
  let orig := lines.getD line.toNat []
  let some _ := strstr (ascii "\"hash\"") orig | return (-1, log)
  let some cmdPos := findKey orig "\"command\":\"" 11 | return (-1, log)
  let cmdEnd := cmdPos.dropWhile (· ≠ quote)
  if cmdEnd = [] then return (-1, log)
  let frontLen := orig.length - cmdPos.length
  let newLine ← newLine.copyFrom (cString orig) frontLen
  let newLine ← newLine.write frontLen 0
  let newLine ← newLine.strncat newValue (lineBufferSize - (← newLine.readStr).length - 1)
  let newLine ← newLine.strncat cmdEnd (lineBufferSize - (← newLine.readStr).length - 1)
  if writable = false then return (-1, log)
  return (0, some (fileText (lines.set line.toNat (← newLine.readStr))))

/-- The raw command stands between the first `"command":"` and the next quote. -/
def withCommand (line newValue : Bytes) : Option Bytes :=
  match findKey line "\"command\":\"" 11 with
  | none => none
  | some rest =>
    if quote ∈ rest then
      some (line.take (line.length - rest.length) ++ newValue ++ rest.dropWhile (· ≠ quote))
    else none

def tamperedLine (lines : List Bytes) (line : Int) (newValue : Bytes) : Option Bytes :=
  if line < 0 then none
  else do
    let orig ← lines[line.toNat]?
    if (strstr (ascii "\"hash\"") orig).isNone then none else withCommand orig newValue

variable {writable : Bool} {newLine : CharArray lineBufferSize} {log : Option Bytes} {line : Int}
  {newValue : Bytes}

theorem localLogReadAll_plain (log : Option Bytes) :
    ∀ line ∈ localLogReadAll log, Plain line ∧ line.length ≤ lineBufferSize - 1 := by
  intro line member
  rw [localLogReadAll_eq] at member
  obtain ⟨nulFree, short⟩ := readLines_fit member
  exact ⟨⟨readLines_newlineFree member, nulFree⟩, short⟩

theorem dropWhile_quote {text : Bytes} : text.dropWhile (· ≠ quote) = [] ↔ quote ∉ text := by
  rw [List.dropWhile_eq_nil_iff]
  constructor
  · intro all member
    simpa using all quote member
  · exact ne_of_excluded

theorem findKey_suffix {text rest : Bytes} {key : String} {length : Nat}
    (found : findKey text key length = some rest) : rest <:+ text := by
  obtain ⟨hit, searched, rfl⟩ := Option.map_eq_some_iff.mp found
  exact (List.drop_suffix _ _).trans (strstr_isPrefix searched).2

theorem newLine_completes {front cmdEnd : Bytes} {copied : CharArray lineBufferSize}
    (spells : copied.Spells front) (valueFree : (0 : UInt8) ∉ newValue)
    (endFree : (0 : UInt8) ∉ cmdEnd) :
    Completes (do
      let newLine ← copied.strncat newValue (lineBufferSize - (← copied.readStr).length - 1)
      let newLine ← newLine.strncat cmdEnd (lineBufferSize - (← newLine.readStr).length - 1)
      newLine.readStr) fun text => text = (front ++ newValue ++ cmdEnd).take (lineBufferSize - 1) := by
  have short := spells.length_lt
  rw [spells.readStr_eq, Option.bind_eq_bind, Option.bind_some]
  have room : front.length + (lineBufferSize - front.length - 1) < lineBufferSize := by omega
  refine (spells.strncat valueFree room).bind fun joined joinedSpells => ?_
  rw [Nat.sub_right_comm, append_cut (by omega)] at joinedSpells
  have joinedShort := joinedSpells.length_lt
  rw [joinedSpells.readStr_eq, Option.bind_eq_bind, Option.bind_some]
  refine (joinedSpells.strncat endFree (by omega)).bind fun ended endedSpells => ?_
  rw [Nat.sub_right_comm, append_cut (by omega), cut_append] at endedSpells
  exact ⟨_, endedSpells.readStr_eq, rfl⟩

theorem localLogSimulateTamper_eq (valueFree : (0 : UInt8) ∉ newValue) :
    localLogSimulateTamper writable newLine log line newValue =
      some (match tamperedLine (localLogReadAll log) line newValue with
        | none => (-1, log)
        | some full =>
          if writable then (0, some (fileText ((localLogReadAll log).set line.toNat
            (full.take (lineBufferSize - 1)))))
          else (-1, log)) := by
  unfold localLogSimulateTamper tamperedLine
  by_cases negative : line < 0
  · simp [negative]
  by_cases outside : ((localLogReadAll log).length : Int) ≤ line
  · have missing : (localLogReadAll log)[line.toNat]? = none := by
      rw [List.getElem?_eq_none_iff]
      omega
    simp [negative, outside, missing]
  obtain ⟨orig, here⟩ : ∃ orig, (localLogReadAll log)[line.toNat]? = some orig :=
    ⟨_, List.getElem?_eq_getElem (by omega)⟩
  obtain ⟨plain, short⟩ := localLogReadAll_plain log orig (List.mem_of_getElem? here)
  rw [if_neg (by omega : ¬(line < 0 ∨ ((localLogReadAll log).length : Int) ≤ line)), if_neg negative,
    List.getD_eq_getElem?_getD, here]
  simp only [Option.getD_some, Option.bind_eq_bind, Option.bind_some]
  cases hash : strstr (ascii "\"hash\"") orig with
  | none => simp
  | some found =>
      rw [Option.isNone_some, if_neg (by decide), withCommand]
      cases command : findKey orig "\"command\":\"" 11 with
      | none => simp
      | some rest =>
          dsimp only
          by_cases closed : quote ∈ rest
          · have suffix := findKey_suffix command
            have tailFree : (0 : UInt8) ∉ rest.dropWhile (· ≠ quote) := fun member =>
              plain.nulFree (suffix.subset ((List.dropWhile_suffix _).subset member))
            have nonempty : rest.dropWhile (· ≠ quote) ≠ [] :=
              fun empty => dropWhile_quote.mp empty closed
            have longer := List.length_pos_of_mem closed
            have room : orig.length - rest.length < lineBufferSize := by
              have size : (0 : Nat) < lineBufferSize := by decide
              omega
            have starts : Completes (do
                (← newLine.copyFrom (cString orig) (orig.length - rest.length)).write
                  (orig.length - rest.length) 0) _ :=
              copyFront plain.nulFree (Nat.sub_le _ _) room
            obtain ⟨front, ran, spells⟩ := starts
            obtain ⟨copied, copies, ended⟩ := Option.bind_eq_some_iff.mp ran
            obtain ⟨text, writes, spelled⟩ := newLine_completes spells valueFree tailFree
            obtain ⟨first, read, writes⟩ := Option.bind_eq_some_iff.mp writes
            obtain ⟨joined, joins, writes⟩ := Option.bind_eq_some_iff.mp writes
            obtain ⟨second, reread, writes⟩ := Option.bind_eq_some_iff.mp writes
            obtain ⟨written, appends, finished⟩ := Option.bind_eq_some_iff.mp writes
            simp only [if_neg nonempty, copies, ended, read, joins, reread, appends, finished,
              Option.bind_some, if_pos closed, spelled]
            cases writable with
            | false => rfl
            | true => rfl
          · rw [if_pos (dropWhile_quote.mpr closed), if_neg closed]
            rfl

theorem strstr_append {pattern text found : Bytes} (hit : strstr pattern text = some found)
    (more : Bytes) : strstr pattern (text ++ more) = some (found ++ more) := by
  induction text with
  | nil =>
      by_cases empty : pattern = []
      · simp only [strstr, empty, if_true, Option.some.injEq] at hit
        rw [← hit, List.nil_append, empty]
        exact strstr_here (List.nil_prefix)
      · simp [strstr, empty] at hit
  | cons byte rest ih =>
      rw [List.cons_append]
      by_cases starts : pattern <+: byte :: rest
      · have here : found = byte :: rest :=
          Option.some.inj (hit.symm.trans (strstr_here starts))
        rw [here]
        exact strstr_here (starts.trans (List.prefix_append _ _))
      · rw [strstr_skip starts] at hit
        have short := (strstr_isPrefix hit).1.length_le.trans (strstr_isPrefix hit).2.length_le
        rw [strstr_skip, ih hit]
        intro later
        apply starts
        apply List.prefix_of_prefix_length_le later (List.prefix_append (byte :: rest) more)
        simp only [List.length_cons]
        omega

theorem withCommand_append {text replaced : Bytes} (found : withCommand text newValue = some replaced)
    (more : Bytes) : withCommand (text ++ more) newValue = some (replaced ++ more) := by
  unfold withCommand at found ⊢
  split at found
  · simp at found
  · rename_i rest searched
    have suffix := findKey_suffix searched
    obtain ⟨hit, place, rfl⟩ := Option.map_eq_some_iff.mp searched
    split at found
    · rename_i closed
      obtain rfl := Option.some.inj found
      have longer : 11 ≤ hit.length := (strstr_isPrefix place).1.length_le
      have moved : findKey (text ++ more) "\"command\":\"" 11 = some (hit.drop 11 ++ more) := by
        rw [findKey, strstr_append place, Option.map_some, List.drop_append_of_le_length longer]
      have nonempty : (hit.drop 11).dropWhile (· ≠ quote) ≠ [] :=
        fun empty => dropWhile_quote.mp empty closed
      have bound := suffix.length_le
      have inside : quote ∈ hit.drop 11 ++ more := List.mem_append_left _ closed
      have front : (text ++ more).length - (hit.drop 11 ++ more).length =
          text.length - (hit.drop 11).length := by
        rw [List.length_append, List.length_append]
        omega
      rw [moved]
      dsimp only
      rw [if_pos inside, front, List.take_append_of_le_length (by omega), List.dropWhile_append,
        if_neg (by simpa using nonempty)]
      simp only [List.append_assoc]
    · simp at found

theorem withCommand_excludes {text replaced : Bytes} {byte : UInt8} (outside : byte ∉ text)
    (valueOutside : byte ∉ newValue) (found : withCommand text newValue = some replaced) :
    byte ∉ replaced := by
  unfold withCommand at found
  split at found
  · simp at found
  · rename_i rest searched
    have suffix := findKey_suffix searched
    split at found
    · obtain rfl := Option.some.inj found
      simp only [List.mem_append, not_or]
      exact ⟨⟨fun member => outside (List.mem_of_mem_take member), valueOutside⟩,
        fun member => outside (suffix.subset ((List.dropWhile_suffix _).subset member))⟩
    · simp at found

theorem withCommand_plain {text replaced : Bytes} (plain : Plain text) (valuePlain : Plain newValue)
    (found : withCommand text newValue = some replaced) : Plain replaced where
  newlineFree := withCommand_excludes plain.newlineFree valuePlain.newlineFree found
  nulFree := withCommand_excludes plain.nulFree valuePlain.nulFree found

theorem withCommand_nonempty {text replaced : Bytes}
    (found : withCommand text newValue = some replaced) : text ≠ [] := by
  rintro rfl
  simp [withCommand, findKey, strstr, show ascii "\"command\":\"" ≠ [] by decide] at found

def Rewritten (lines : List Bytes) (line : Int) (newValue : Bytes) (after : Option Bytes) : Prop :=
  0 ≤ line ∧ ∃ original replaced, lines[line.toNat]? = some original ∧
    withCommand original newValue = some replaced ∧
    after = some (fileText (lines.set line.toNat replaced)) ∧
    localLogReadAll after = lines.set line.toNat replaced

/-- Either nothing is changed, or just the command of the chosen line, and the lines are those
that are read back. -/
def LeavesRest (writable : Bool) (newLine : CharArray lineBufferSize) (lines : List Bytes)
    (line : Int) (newValue : Bytes) : Prop :=
  Completes (localLogSimulateTamper writable newLine (some (fileText lines)) line newValue)
    fun result => (result.1 = -1 ∧ result.2 = some (fileText lines)) ∨
      (result.1 = 0 ∧ Rewritten lines line newValue result.2)

theorem tamperedLine_some {lines : List Bytes} {full : Bytes}
    (found : tamperedLine lines line newValue = some full) :
    0 ≤ line ∧ ∃ orig, lines[line.toNat]? = some orig ∧ withCommand orig newValue = some full := by
  unfold tamperedLine at found
  split at found
  · simp at found
  · obtain ⟨orig, here, found⟩ := Option.bind_eq_some_iff.mp found
    split at found
    · simp at found
    · exact ⟨by omega, orig, here, found⟩

theorem read_of_rewritten {lines : List Bytes} (plain : ∀ line ∈ lines, Plain line) {index : Nat}
    {orig original full replaced : Bytes}
    (read : (localLogReadAll (some (fileText lines)))[index]? = some orig)
    (here : lines[index]? = some original) (fromRead : withCommand orig newValue = some full)
    (fromFile : withCommand original newValue = some replaced)
    (same : (localLogReadAll (some (fileText lines))).set index (full.take (lineBufferSize - 1)) =
      lines.set index replaced) :
    localLogReadAll (some (fileText lines)) = lines := by
  have elsewhere : ∀ other, index ≠ other →
      (localLogReadAll (some (fileText lines)))[other]? = lines[other]? := by
    intro other apart
    have equal := congrArg (·[other]?) same
    simpa only [List.getElem?_set_ne apart] using equal
  have front : ∃ line, lines[index]? = some line ∧ orig = line.take (lineBufferSize - 1) :=
    readLines_agree (by decide) plain (fun earlier below => elsewhere earlier (by omega)) read
      (withCommand_nonempty fromRead)
  obtain ⟨line, isHere, cut⟩ := front
  obtain rfl : original = line := Option.some.inj (here.symm.trans isHere)
  have chosen : full.take (lineBufferSize - 1) = replaced := by
    have inside : index < (localLogReadAll (some (fileText lines))).length :=
      (List.getElem?_eq_some_iff.mp read).1
    have alsoInside : index < lines.length := (List.getElem?_eq_some_iff.mp here).1
    have equal := congrArg (·[index]?) same
    simpa [List.getElem?_set_self, inside, alsoInside] using equal
  -- a line that was cut would have lost what stands behind the cut
  have whole : original.drop (lineBufferSize - 1) = [] := by
    have appended := withCommand_append fromRead (original.drop (lineBufferSize - 1))
    rw [cut, List.take_append_drop] at appended
    have longer := congrArg List.length (Option.some.inj (fromFile.symm.trans appended))
    rw [← chosen, List.length_append, List.length_take] at longer
    exact List.length_eq_zero_iff.mp (by omega)
  have uncut : orig = original := by
    rw [cut, ← List.append_nil (original.take _), ← whole, List.take_append_drop]
  apply List.ext_getElem?
  intro other
  by_cases apart : index = other
  · rw [← apart, read, here, uncut]
  · exact elsewhere other apart

theorem rewritten_iff {lines : List Bytes} (plain : ∀ line ∈ lines, Plain line)
    (valuePlain : Plain newValue) {full : Bytes}
    (found : tamperedLine (localLogReadAll (some (fileText lines))) line newValue = some full) :
    Rewritten lines line newValue (some (fileText
        ((localLogReadAll (some (fileText lines))).set line.toNat (full.take (lineBufferSize - 1))))) ↔
      ReadBack lineBufferSize cachedLinesMax lines ∧
        ReadBack lineBufferSize cachedLinesMax (lines.set line.toNat full) := by
  have large : 1 < lineBufferSize := by decide
  have readable : localLogReadAll (some (fileText lines)) = lines ↔
    ReadBack lineBufferSize cachedLinesMax lines := readLines_fileText_iff large plain
  obtain ⟨nonnegative, orig, read, fromRead⟩ := tamperedLine_some found
  have readPlain := fun text member => (localLogReadAll_plain (some (fileText lines)) text member).1
  have fullPlain := withCommand_plain (readPlain orig (List.mem_of_getElem? read)) valuePlain fromRead
  constructor
  · rintro ⟨_, original, replaced, here, fromFile, file, back⟩
    have replacedPlain := withCommand_plain (plain original (List.mem_of_getElem? here)) valuePlain
      fromFile
    have cutPlain : Plain (full.take (lineBufferSize - 1)) :=
      ⟨fun member => fullPlain.newlineFree (List.mem_of_mem_take member),
        fun member => fullPlain.nulFree (List.mem_of_mem_take member)⟩
    have same := fileText_injective
      (fun text member => (forall_set readPlain cutPlain text member).newlineFree)
      (fun text member => (forall_set plain replacedPlain text member).newlineFree)
      (Option.some.inj file)
    have asRead := read_of_rewritten plain read here fromRead fromFile same
    rw [asRead, here] at read
    obtain rfl := Option.some.inj read
    obtain rfl := Option.some.inj (fromFile.symm.trans fromRead)
    rw [file] at back
    exact ⟨readable.mp asRead,
      (readLines_fileText_iff large (forall_set plain fullPlain)).mp back⟩
  · rintro ⟨linesBack, fullBack⟩
    have asRead := readable.mpr linesBack
    rw [asRead] at read ⊢
    have fits : full.length ≤ lineBufferSize - 1 := by
      apply fullBack.length_le
      exact List.mem_set (List.getElem?_eq_some_iff.mp read).1 full
    rw [List.take_of_length_le fits]
    exact ⟨nonnegative, orig, full, read, fromRead, rfl,
      (readLines_fileText_iff large (forall_set plain fullPlain)).mpr fullBack⟩

theorem leavesRest_iff {lines : List Bytes} (plain : ∀ line ∈ lines, Plain line)
    (valuePlain : Plain newValue) :
    LeavesRest writable newLine lines line newValue ↔
      (writable = true → ∀ full,
        tamperedLine (localLogReadAll (some (fileText lines))) line newValue = some full →
          ReadBack lineBufferSize cachedLinesMax lines ∧
            ReadBack lineBufferSize cachedLinesMax (lines.set line.toNat full)) := by
  unfold LeavesRest
  rw [localLogSimulateTamper_eq valuePlain.nulFree]
  cases found : tamperedLine (localLogReadAll (some (fileText lines))) line newValue with
  | none => simp [Completes]
  | some full =>
      cases writable with
      | false => simp [Completes]
      | true =>
          have rewritten := rewritten_iff plain valuePlain found
          constructor
          · rintro ⟨result, ran, outcome⟩ _ other alsoFound
            obtain rfl := Option.some.inj alsoFound
            obtain rfl := Option.some.inj ran
            rcases outcome with ⟨refused, _⟩ | ⟨_, becomes⟩
            · simp at refused
            · exact rewritten.mp becomes
          · intro readBack
            exact ⟨_, rfl, Or.inr ⟨rfl, rewritten.mpr (readBack rfl full rfl)⟩⟩

theorem idLine_plain : Plain (idLine "id") := ⟨by decide +kernel, idLine_nulFree (Or.inl rfl)⟩

theorem idLines_plain : ∀ line ∈ [idLine "id", idLine "id"], Plain line := by
  simp only [List.forall_mem_cons]
  exact ⟨idLine_plain, idLine_plain, by simp⟩

theorem idLines_readBack : ReadBack lineBufferSize cachedLinesMax [idLine "id", idLine "id"] := by
  apply readBack_of_short _ (by decide)
  simp only [List.forall_mem_cons]
  exact ⟨by decide +kernel, by decide +kernel, by simp⟩

theorem idLines_rest : LeavesRest true .zero [idLine "id", idLine "id"] 1 (ascii "ls") := by
  refine (leavesRest_iff idLines_plain ⟨by decide, by decide⟩).mpr fun _ full found => ?_
  have asRead : localLogReadAll (some (fileText [idLine "id", idLine "id"])) =
      [idLine "id", idLine "id"] :=
    (readLines_fileText_iff (by decide) idLines_plain).mpr idLines_readBack
  have replaced : tamperedLine [idLine "id", idLine "id"] 1 (ascii "ls") = some (idLine "ls") := by
    decide +kernel
  rw [asRead, replaced] at found
  obtain rfl := Option.some.inj found
  refine ⟨idLines_readBack, readBack_of_short ?_ (by decide)⟩
  simp only [List.set_cons_succ, List.set_cons_zero, Int.toNat_one, List.forall_mem_cons]
  exact ⟨by decide +kernel, by decide +kernel, by simp⟩

theorem idLines_tampered (value : Bytes) : ∃ front tail,
    tamperedLine [idLine "id", idLine "id"] 1 value = some (front ++ value ++ tail) := by
  have hash : (strstr (ascii "\"hash\"") (idLine "id")).isNone = false := by decide +kernel
  obtain ⟨rest, place, closed⟩ : ∃ rest, findKey (idLine "id") "\"command\":\"" 11 = some rest ∧
      quote ∈ rest := ⟨(idLine "id").drop 34, by decide +kernel, by decide +kernel⟩
  refine ⟨(idLine "id").take ((idLine "id").length - rest.length), rest.dropWhile (· ≠ quote), ?_⟩
  rw [tamperedLine, if_neg (by decide)]
  change (if (strstr (ascii "\"hash\"") (idLine "id")).isNone then none
    else withCommand (idLine "id") value) = _
  rw [hash, if_neg (by decide), withCommand, place]
  exact if_pos closed

/-- A value that does not fit into the buffer pushes the hash out of the line. -/
theorem longValue_cuts {value : Bytes} (valuePlain : Plain value)
    (long : lineBufferSize ≤ value.length) :
    ¬LeavesRest true .zero [idLine "id", idLine "id"] 1 value := by
  rintro ⟨result, ran, outcome⟩
  have asRead : localLogReadAll (some (fileText [idLine "id", idLine "id"])) =
      [idLine "id", idLine "id"] :=
    (readLines_fileText_iff (by decide) idLines_plain).mpr idLines_readBack
  obtain ⟨front, tail, found⟩ := idLines_tampered value
  rw [← asRead] at found
  rw [localLogSimulateTamper_eq valuePlain.nulFree, found] at ran
  obtain rfl := Option.some.inj ran
  rcases outcome with ⟨refused, _⟩ | ⟨_, becomes⟩
  · simp at refused
  · have fullBack := ((rewritten_iff idLines_plain valuePlain found).mp becomes).2
    have fits := fullBack.length_le (List.mem_set (by decide) _)
    have size : lineBufferSize = 8192 := rfl
    simp only [List.length_append] at fits
    omega

theorem nineThousand_cuts :
    ¬LeavesRest true .zero [idLine "id", idLine "id"] 1 (List.replicate 9000 65) := by
  apply longValue_cuts ⟨?_, ?_⟩
  · rw [List.length_replicate]
    decide
  · intro member
    exact absurd (List.eq_of_mem_replicate member) (by decide)
  · intro member
    exact absurd (List.eq_of_mem_replicate member) (by decide)

end BlockchainAuditor
