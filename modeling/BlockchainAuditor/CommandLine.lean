import BlockchainAuditor.Procfs

/-! The command line that `read_proc_cmdline` makes of the arguments in `/proc`, each of them
ended by a NUL. -/

namespace BlockchainAuditor

open CStrings CharArray

def spaced (c : UInt8) : UInt8 := if c = 0 then space else c

/-- NULs in front of the first character are skipped, and the others become spaces. -/
def cmdlineText (content : Bytes) : Bytes := (content.dropWhile (· = 0)).map spaced

def stripSpace (text : Bytes) : Bytes := if text.getLast? = some space then text.dropLast else text

variable {n size : Nat} {buf : CharArray n}

theorem copyCmdline_cons {pos : Nat} (started : 0 < pos) (room : pos < size - 1) (c : UInt8)
    (rest : Bytes) : copyCmdline size (c :: rest) pos buf =
      (do copyCmdline size rest (pos + 1) (← buf.write pos (spaced c))) := by
  rw [copyCmdline, if_pos room]
  by_cases nul : c = 0
  · rw [if_pos nul, if_pos ⟨started, room⟩, spaced, if_pos nul]
  · rw [if_neg nul, spaced, if_neg nul]

theorem copyCmdline_behind (fits : size ≤ n) (content : Bytes) {written : Bytes}
    (started : written ≠ []) (short : written.length ≤ size - 1) (starts : written <+: buf.cells) :
    Completes (copyCmdline size content written.length buf) fun result =>
      result.2 = ((written ++ content.map spaced).take (size - 1)).length ∧
        (written ++ content.map spaced).take (size - 1) <+: result.1.cells := by
  induction content generalizing buf written with
  | nil =>
      refine completes_some ?_
      rw [List.map_nil, List.append_nil, List.take_of_length_le short]
      exact ⟨rfl, starts⟩
  | cons c rest ih =>
      by_cases room : written.length < size - 1
      · rw [copyCmdline_cons (List.length_pos_iff.mpr started) room]
        refine (write_behind starts (by omega) (spaced c)).bind fun next longer => ?_
        have length : (written ++ [spaced c]).length = written.length + 1 := by simp
        have after := ih (by simp) (by rw [length]; exact room) longer
        rw [length, List.append_assoc] at after
        exact after
      · rw [copyCmdline, if_neg room]
        refine completes_some ?_
        have full : (written ++ (c :: rest).map spaced).take (size - 1) = written := by
          rw [List.take_append_of_le_length (by omega), List.take_of_length_le short]
        rw [full]
        exact ⟨rfl, starts⟩

theorem copyCmdline_text (fits : size ≤ n) (content : Bytes) :
    Completes (copyCmdline size content 0 buf) fun result =>
      result.2 = ((cmdlineText content).take (size - 1)).length ∧
        (cmdlineText content).take (size - 1) <+: result.1.cells := by
  induction content with
  | nil => exact completes_some (by simp [cmdlineText])
  | cons c rest ih =>
      rw [copyCmdline]
      by_cases room : 0 < size - 1
      · rw [if_pos room]
        by_cases nul : c = 0
        · rw [if_pos nul, if_neg (by omega)]
          have skipped : cmdlineText (c :: rest) = cmdlineText rest := by simp [cmdlineText, nul]
          rw [skipped]
          exact ih
        · rw [if_neg nul]
          have whole : cmdlineText (c :: rest) = [c] ++ rest.map spaced := by
            simp [cmdlineText, nul, spaced]
          rw [whole]
          have writes : Completes (buf.write ([] : Bytes).length c) _ :=
            write_behind List.nil_prefix (by rw [List.length_nil]; omega) c
          exact writes.bind fun next longer =>
            copyCmdline_behind fits rest (List.cons_ne_nil c []) room longer
      · rw [if_neg room]
        have none : (cmdlineText (c :: rest)).take (size - 1) = [] := by
          rw [show size - 1 = 0 by omega, List.take_zero]
        rw [none]
        exact completes_some ⟨rfl, List.nil_prefix⟩

theorem cmdlineText_nulFree (content : Bytes) : (0 : UInt8) ∉ cmdlineText content := by
  intro member
  obtain ⟨c, _, nul⟩ := List.mem_map.mp member
  unfold spaced at nul
  split at nul
  · exact absurd nul (by decide)
  · rename_i visible
    exact visible nul

variable {host : Host} {pid : Int32}

theorem readProcCmdline_str {file : Stream} (opened : host.fopen (procPath pid "cmdline") = some file)
    (positive : 0 < size) (fits : size ≤ n) :
    Completes (readProcCmdline host pid buf size) fun read =>
      read.str = stripSpace ((cmdlineText file.content).take (size - 1)) := by
  have short : ((cmdlineText file.content).take (size - 1)).length ≤ size - 1 := by simp
  have nulFree : (0 : UInt8) ∉ (cmdlineText file.content).take (size - 1) :=
    fun member => cmdlineText_nulFree _ (List.mem_of_mem_take member)
  unfold readProcCmdline
  rw [opened]
  refine (copyCmdline_text fits file.content).bind fun ⟨copied, pos⟩ ⟨length, starts⟩ => ?_
  dsimp only at length starts ⊢
  generalize (cmdlineText file.content).take (size - 1) = text at short nulFree length starts ⊢
  rw [length]
  refine (write_behind starts (by omega) 0).bind fun ended closed => ?_
  have last : (0 < text.length ∧ ended.cells[text.length - 1]? = some space) ↔
      text.getLast? = some space := by
    obtain ⟨behind, cells⟩ := closed
    have inside : 0 < text.length → ended.cells[text.length - 1]? = text.getLast? := by
      intro nonempty
      rw [← cells, List.append_assoc, List.getElem?_append_left (by omega),
        List.getLast?_eq_getElem?]
    constructor
    · rintro ⟨nonempty, atLast⟩
      rw [← inside nonempty]
      exact atLast
    · intro atLast
      have nonempty := List.length_pos_of_mem (List.mem_of_getLast? atLast)
      exact ⟨nonempty, (inside nonempty).trans atLast⟩
  split
  · rename_i spaceLast
    have atLast := last.mp spaceLast
    have front : text.dropLast <+: ended.cells :=
      (text.dropLast_prefix.trans (List.prefix_append _ _)).trans closed
    have length : text.dropLast.length = text.length - 1 := List.length_dropLast
    rw [← length]
    refine (write_behind front (by omega) 0).mono fun stripped strippedClosed => ?_
    rw [stripSpace, if_pos atLast]
    exact str_eq (fun member => nulFree (text.dropLast_subset member)) strippedClosed
  · rename_i other
    rw [last] at other
    refine completes_some ?_
    rw [stripSpace, if_neg other]
    exact str_eq nulFree closed

def cmdlineFile (args : List Bytes) : Bytes := args.flatMap cString

def joinedArguments (args : List Bytes) : Bytes := [space].intercalate args

theorem spaced_plain {text : Bytes} (nulFree : (0 : UInt8) ∉ text) : text.map spaced = text := by
  refine (List.map_congr_left fun c member => ?_).trans (List.map_id _)
  rw [spaced, if_neg]
  · rfl
  · rintro rfl
    exact nulFree member

theorem cmdlineFile_spaced {args : List Bytes} (present : args ≠ [])
    (nulFree : ∀ arg ∈ args, (0 : UInt8) ∉ arg) :
    (cmdlineFile args).map spaced = joinedArguments args ++ [space] := by
  induction args with
  | nil => exact absurd rfl present
  | cons arg rest ih =>
      have plain := spaced_plain (nulFree arg (by simp))
      rw [cmdlineFile, List.flatMap_cons, cString, List.map_append, List.map_append, plain]
      by_cases single : rest = []
      · subst single
        simp [joinedArguments, spaced]
      · have others := ih single fun other member => nulFree other (by simp [member])
        rw [cmdlineFile] at others
        rw [others, joinedArguments, joinedArguments, List.intercalate_cons_of_ne_nil single]
        simp [spaced]

def StartsVisibly (args : List Bytes) : Prop := args.length = 1 ∨ args.head? ≠ some []

theorem stripSpace_closed (text : Bytes) : stripSpace (text ++ [space]) = text := by
  simp [stripSpace]

theorem stripSpace_iff (text : Bytes) : stripSpace text = text ↔ text.getLast? ≠ some space := by
  unfold stripSpace
  split
  · rename_i atLast
    constructor
    · intro same
      have nonempty := List.length_pos_of_mem (List.mem_of_getLast? atLast)
      have length := congrArg List.length same
      rw [List.length_dropLast] at length
      omega
    · exact fun other => absurd atLast other
  · rename_i other
    exact ⟨fun _ => other, fun _ => rfl⟩

theorem cmdlineText_visible {args : List Bytes} (present : args ≠ [])
    (nulFree : ∀ arg ∈ args, (0 : UInt8) ∉ arg) (visible : args.head? ≠ some []) :
    cmdlineText (cmdlineFile args) = joinedArguments args ++ [space] := by
  have stays : (cmdlineFile args).dropWhile (· = 0) = cmdlineFile args := by
    match args, present, visible with
    | [] :: _, _, visible => exact absurd rfl visible
    | (c :: arg) :: rest, _, _ =>
        have first := nulFree (c :: arg) (by simp)
        simp only [List.mem_cons, not_or] at first
        rw [cmdlineFile, List.flatMap_cons, cString, List.cons_append, List.cons_append,
          List.dropWhile_cons_of_neg]
        simpa using Ne.symm first.1
  rw [cmdlineText, stays, cmdlineFile_spaced present nulFree]

theorem cmdlineText_hidden {args : List Bytes} (nulFree : ∀ arg ∈ args, (0 : UInt8) ∉ arg)
    (hidden : args.head? = some []) :
    cmdlineText (cmdlineFile args) <:+ joinedArguments args ++ [space] ∧
      (cmdlineText (cmdlineFile args)).length ≤ (joinedArguments args).length := by
  obtain ⟨rest, rfl⟩ := List.head?_eq_some_iff.mp hidden
  have whole := cmdlineFile_spaced (by simp) nulFree
  have dropped : (cmdlineFile ([] :: rest)).dropWhile (· = 0) =
      (cmdlineFile rest).dropWhile (· = 0) := by
    rw [cmdlineFile, List.flatMap_cons]
    exact List.dropWhile_cons_of_pos (by simp)
  refine ⟨?_, ?_⟩
  · rw [cmdlineText, ← whole]
    exact (List.dropWhile_suffix _).map _
  · have length := congrArg List.length whole
    have shorter := (List.dropWhile_suffix (l := cmdlineFile rest) (· = 0)).length_le
    have file : (cmdlineFile ([] :: rest)).length = (cmdlineFile rest).length + 1 := by
      simp [cmdlineFile, cString]
    rw [List.length_map, List.length_append, List.length_singleton] at length
    rw [cmdlineText, dropped, List.length_map]
    omega

theorem joinedArguments_nonempty {args : List Bytes} (several : 2 ≤ args.length) :
    0 < (joinedArguments args).length := by
  match args, several with
  | first :: second :: rest, _ => simp [joinedArguments, List.intercalate_cons_cons]

theorem strip_visible {joined : Bytes} (larger : joined.length < size) :
    stripSpace ((joined ++ [space]).take (size - 1)) = joined ↔
      joined.length + 1 < size ∨ joined.getLast? ≠ some space := by
  by_cases room : joined.length + 1 < size
  · have whole : (joined ++ [space]).take (size - 1) = joined ++ [space] :=
      List.take_of_length_le (by simp only [List.length_append, List.length_singleton]; omega)
    rw [whole, stripSpace_closed]
    simp [room]
  · have exact : (joined ++ [space]).take (size - 1) = joined := by
      rw [List.take_append_of_le_length (by omega), List.take_of_length_le (by omega)]
    rw [exact, stripSpace_iff]
    simp [room]

theorem strip_hidden {joined text : Bytes} (suffix : text <:+ joined ++ [space])
    (shorter : text.length ≤ joined.length) (nonempty : 0 < joined.length)
    (larger : joined.length < size) : stripSpace (text.take (size - 1)) ≠ joined := by
  rw [List.take_of_length_le (by omega)]
  intro same
  by_cases empty : text = []
  · subst empty
    rw [← same] at nonempty
    simp [stripSpace] at nonempty
  · obtain ⟨front, split⟩ := suffix
    have last := congrArg List.getLast? split
    rw [List.getLast?_append_of_ne_nil _ empty, List.getLast?_concat] at last
    have length := congrArg List.length same
    rw [stripSpace, if_pos last, List.length_dropLast] at length
    have positive := List.length_pos_iff.mpr empty
    omega

theorem cmdline_faithful_iff {args : List Bytes} {failing : Bool} (present : args ≠ [])
    (nulFree : ∀ arg ∈ args, (0 : UInt8) ∉ arg)
    (opened : host.fopen (procPath pid "cmdline") = some ⟨cmdlineFile args, failing⟩)
    (larger : (joinedArguments args).length < size) (fits : size ≤ n) :
    ∃ read, readProcCmdline host pid buf size = some read ∧
      (read.str = joinedArguments args ↔ StartsVisibly args ∧
        ((joinedArguments args).length + 1 < size ∨
          (joinedArguments args).getLast? ≠ some space)) := by
  have reads : Completes (readProcCmdline host pid buf size) _ :=
    readProcCmdline_str opened (by omega) fits
  obtain ⟨read, returned, spelled⟩ := reads
  refine ⟨read, returned, ?_⟩
  rw [spelled, StartsVisibly]
  dsimp only
  by_cases visible : args.head? ≠ some []
  · rw [cmdlineText_visible present nulFree visible, strip_visible larger]
    simp [visible]
  · rw [ne_eq, not_not] at visible
    by_cases single : args.length = 1
    · obtain ⟨rest, rfl⟩ := List.head?_eq_some_iff.mp visible
      obtain rfl : rest = [] := by simpa using single
      simp [cmdlineText, cmdlineFile, cString, joinedArguments, stripSpace]
    · have several : 2 ≤ args.length := by
        have nonempty := List.length_pos_iff.mpr present
        omega
      obtain ⟨suffix, shorter⟩ := cmdlineText_hidden nulFree visible
      have differs := strip_hidden suffix shorter (joinedArguments_nonempty several) larger
      simp [differs, single, visible]

def argumentsHost (args : List Bytes) : Host :=
  { noonHost with fopen := fun _ => some ⟨cmdlineFile args, false⟩ }

theorem lsArguments_faithful :
    ∃ read, readProcCmdline (argumentsHost [ascii "ls", ascii "-la"]) 42 (.zero : CharArray 64) 64 =
        some read ∧
      (read.str = joinedArguments [ascii "ls", ascii "-la"] ↔
        StartsVisibly [ascii "ls", ascii "-la"] ∧
          ((joinedArguments [ascii "ls", ascii "-la"]).length + 1 < 64 ∨
            (joinedArguments [ascii "ls", ascii "-la"]).getLast? ≠ some space)) :=
  cmdline_faithful_iff (by decide) (by decide) rfl (by decide) (by decide)

theorem emptyArgument_lost : ¬∀ (args : List Bytes), args ≠ [] → (∀ arg ∈ args, (0 : UInt8) ∉ arg) →
    (joinedArguments args).length < 64 →
      ∀ read, readProcCmdline (argumentsHost args) 42 (.zero : CharArray 64) 64 = some read →
        read.str = joinedArguments args := by
  intro faithful
  have reads : Completes (readProcCmdline (argumentsHost [[], ascii "id"]) 42
    (.zero : CharArray 64) 64) _ := readProcCmdline_str rfl (by decide) (Nat.le_refl _)
  obtain ⟨read, returned, spelled⟩ := reads
  have kept := faithful [[], ascii "id"] (by decide) (by decide) (by decide) read returned
  rw [spelled] at kept
  exact absurd kept (by decide)

end BlockchainAuditor
