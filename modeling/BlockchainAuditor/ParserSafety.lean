import BlockchainAuditor.EventEncoding

/-! `audit_event_from_json` stays inside the text and inside its arrays, whatever the text, and
the strings of what it accepts are ended and free of quotes. -/

namespace BlockchainAuditor

open CStrings CharArray
open KeyedText (quote)

section Copying

variable {size limit : Nat}

theorem copyQuoted_safe (inside : limit < size) {text : Bytes} (closed : 0 ∈ text) :
    ∀ {i : Nat} {field : CharArray size}, i ≤ limit → field.Ended → quote ∉ field.cells →
      Completes (copyQuoted limit text i field) fun copied =>
        copied.Ended ∧ quote ∉ copied.cells := by
  induction text with
  | nil => simp at closed
  | cons c rest ih =>
      intro i field bound ended clean
      have stays : ∀ {byte : UInt8} {written : CharArray size}, byte ≠ quote →
          written.cells = field.cells.set i byte → quote ∉ written.cells := by
        intro byte written other cells member
        rw [cells] at member
        rcases List.mem_or_eq_of_mem_set member with before | same
        · exact clean before
        · exact other same.symm
      rw [copyQuoted]
      split
      · rename_i going
        obtain ⟨visible, plain, room⟩ := going
        refine (ended.write (by omega) (Or.inl (by omega))).bind fun written kept => ?_
        obtain ⟨still, cells⟩ := kept
        have more : 0 ∈ rest := (List.mem_cons.mp closed).resolve_left (Ne.symm visible)
        exact ih more (by omega) still (stays plain cells)
      · refine (ended.write (by omega) (Or.inr rfl)).mono fun written kept => ?_
        obtain ⟨still, cells⟩ := kept
        exact ⟨still, stays (by decide) cells⟩

theorem copyCommand_safe (inside : limit < size) {text : Bytes} (closed : 0 ∈ text) {i : Nat}
    {field : CharArray size} (bound : i ≤ limit) (ended : field.Ended) :
    Completes (copyCommand limit text i field) CharArray.Ended := by
  have behind : ∀ {c : UInt8} {rest : Bytes}, 0 ∈ c :: rest → c ≠ 0 → 0 ∈ rest :=
    fun closed visible => (List.mem_cons.mp closed).resolve_left (Ne.symm visible)
  fun_induction copyCommand limit text i field with
  | case1 => simp at closed
  | case2 => exact absurd (behind closed (by decide)) (by simp)
  | case3 i field next after visible going ih =>
      refine (ended.write (by omega) (Or.inl (by omega))).bind fun written ⟨still, _⟩ => ?_
      exact ih written (behind (behind closed going.1) visible) (by omega) still
  | case4 i field next after _ going ih =>
      refine (ended.write (by omega) (Or.inl (by omega))).bind fun written ⟨still, _⟩ => ?_
      exact ih written (behind closed going.1) (by omega) still
  | case5 c rest i field going _ ih =>
      refine (ended.write (by omega) (Or.inl (by omega))).bind fun written ⟨still, _⟩ => ?_
      exact ih written (behind closed going.1) (by omega) still
  | case6 c rest i field _ =>
      exact (ended.write (by omega) (Or.inr rfl)).mono fun _ written => written.1

end Copying

variable (wrap : Int → Int32)

def wrapping : Overflow := fun exact => some (wrap exact)

theorem narrow_completes (exact : Int) : Completes (narrow (wrapping wrap) exact) fun _ => True := by
  unfold narrow
  split
  · exact completes_some trivial
  · exact completes_some trivial

theorem readDigits_completes {text : Bytes} (closed : 0 ∈ text) (value : Int32) :
    Completes (readDigits (wrapping wrap) text value) fun _ => True := by
  induction text generalizing value with
  | nil => simp at closed
  | cons c rest ih =>
      rw [readDigits]
      split
      · rename_i going
        have more : 0 ∈ rest := (List.mem_cons.mp closed).resolve_left (Ne.symm going.1)
        refine (narrow_completes wrap _).bind fun scaled _ => ?_
        refine (narrow_completes wrap _).bind fun next _ => ?_
        exact ih more next
      · exact completes_some trivial

theorem readReturnCode_completes {text : Bytes} (closed : 0 ∈ text) :
    Completes (readReturnCode (wrapping wrap) text) fun _ => True := by
  cases text with
  | nil => simp at closed
  | cons c rest =>
      rw [readReturnCode]
      split
      · rename_i sign
        have more : 0 ∈ rest := (List.mem_cons.mp closed).resolve_left (by rw [sign]; decide)
        exact (readDigits_completes wrap more 0).bind fun digits _ => narrow_completes wrap _
      · exact (readDigits_completes wrap closed 0).bind fun digits _ => narrow_completes wrap _

theorem findKey_closed {json place : Bytes} {key : String} {length : Nat}
    (spelled : (ascii key).length = length ∧ (0 : UInt8) ∉ ascii key)
    (found : findKey (json ++ [0]) key length = some place) : 0 ∈ place := by
  obtain ⟨rfl, nulFree⟩ := spelled
  obtain ⟨hit, searched, rfl⟩ := Option.map_eq_some_iff.mp found
  obtain ⟨⟨rest, rfl⟩, suffix⟩ := strstr_isPrefix searched
  rw [List.drop_left]
  have closed : 0 ∈ ascii key ++ rest := by
    by_cases empty : ascii key ++ rest = []
    · rw [empty] at searched
      have bare : ascii key = [] := (List.append_eq_nil_iff.mp empty).1
      rw [bare, strstr_here (List.nil_prefix)] at searched
      simp at searched
    · obtain ⟨front, split⟩ := suffix
      have last := congrArg List.getLast? split
      rw [List.getLast?_append_of_ne_nil _ empty, List.getLast?_concat] at last
      exact List.mem_of_getLast? last
  exact (List.mem_append.mp closed).resolve_left nulFree

structure CleanStrings (ev : AuditEvent) : Prop where
  terminated : ev.Terminated
  eventType : quote ∉ ev.eventType.str
  user : quote ∉ ev.user.str
  cwd : quote ∉ ev.cwd.str
  timestamp : quote ∉ ev.timestamp.str
  hash : quote ∉ ev.hash.str

def ReturnsSafely (result : Int × AuditEvent) : Prop :=
  (result.1 = 0 ∨ result.1 = -1) ∧ (result.1 = 0 → CleanStrings result.2)

theorem rejected_safe (ev : AuditEvent) : Completes (pure (-1, ev)) ReturnsSafely :=
  completes_pure ⟨Or.inr rfl, fun accepted => absurd (show (-1 : Int) = 0 from accepted) (by decide)⟩

theorem lookup_safe {json : Bytes} {key : String} {length : Nat} {ev : AuditEvent}
    {next : Bytes → Option (Int × AuditEvent)}
    (spelled : (ascii key).length = length ∧ (0 : UInt8) ∉ ascii key)
    (reads : ∀ place, 0 ∈ place → Completes (next place) ReturnsSafely) :
    Completes (match findKey (json ++ [0]) key length with
      | some place => next place
      | _ => pure (-1, ev)) ReturnsSafely := by
  cases found : findKey (json ++ [0]) key length with
  | none => exact rejected_safe ev
  | some place => exact reads place (findKey_closed spelled found)

theorem zero_clean {size : Nat} (positive : 0 < size) :
    (zero : CharArray size).Ended ∧ quote ∉ (zero : CharArray size).cells := by
  refine ⟨zero_ended positive, fun member => ?_⟩
  rw [CharArray.zero, ofStr_cells (by simp)] at member
  have same := (List.mem_replicate.mp (by simpa using member)).2
  exact absurd same (by decide)

theorem str_clean {size : Nat} {array : CharArray size} (clean : quote ∉ array.cells) :
    quote ∉ array.str := fun member => clean ((List.takeWhile_prefix _).subset member)

theorem auditEventFromJson_safe (json : Bytes) : ∃ result,
    auditEventFromJson (wrapping wrap) json = some result ∧ ReturnsSafely result := by
  change Completes _ _
  have copied : ∀ {limit size : Nat} {text : Bytes}, limit < size → 0 ∈ text →
      Completes (copyQuoted limit text 0 (.zero : CharArray size)) fun copied =>
        copied.Ended ∧ quote ∉ copied.cells := by
    intro limit size text inside closed
    obtain ⟨ended, clean⟩ := zero_clean (by omega : 0 < size)
    exact copyQuoted_safe inside closed (Nat.zero_le _) ended clean
  refine lookup_safe (by decide) fun text closed => ?_
  refine (copied (by decide) closed).bind fun eventType ⟨eventTypeEnded, eventTypeClean⟩ => ?_
  refine lookup_safe (by decide) fun text closed => ?_
  refine (copyCommand_safe (by decide) closed (Nat.zero_le _) (zero_ended (by decide))).bind
    fun command commandEnded => ?_
  refine lookup_safe (by decide) fun text closed => ?_
  refine (copied (by decide) closed).bind fun user ⟨userEnded, userClean⟩ => ?_
  refine lookup_safe (by decide) fun text closed => ?_
  refine (readDigits_completes wrap closed 0).bind fun pid _ => ?_
  refine lookup_safe (by decide) fun text closed => ?_
  refine (copied (by decide) closed).bind fun cwd ⟨cwdEnded, cwdClean⟩ => ?_
  refine lookup_safe (by decide) fun text closed => ?_
  refine (copied (by decide) closed).bind fun timestamp ⟨timestampEnded, timestampClean⟩ => ?_
  refine lookup_safe (by decide) fun text closed => ?_
  refine (readReturnCode_completes wrap closed).bind fun returnCode _ => ?_
  refine lookup_safe (by decide) fun text closed => ?_
  refine (copied (by decide) closed).bind fun hash ⟨hashEnded, hashClean⟩ => ?_
  refine completes_pure ⟨Or.inl rfl, fun _ => ?_⟩
  exact {
    terminated := ⟨eventTypeEnded.terminated, commandEnded.terminated, userEnded.terminated,
      cwdEnded.terminated, timestampEnded.terminated, hashEnded.terminated⟩
    eventType := str_clean eventTypeClean
    user := str_clean userClean
    cwd := str_clean cwdClean
    timestamp := str_clean timestampClean
    hash := str_clean hashClean }

end BlockchainAuditor
