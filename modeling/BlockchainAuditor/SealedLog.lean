import BlockchainAuditor.LocalLog
import BlockchainAuditor.IntegrityCheck

/-! A log that nobody touched: what `cmd_integrity_test` reads back from it, line by line. -/

namespace BlockchainAuditor

open CStrings KeyedText LineReader

def delimiters : Bytes := [quote, backslash, newline]

structure Loggable (ev : AuditEvent) : Prop where
  eventType : ∀ byte ∈ delimiters, byte ∉ ev.eventType.str
  command : ∀ byte ∈ delimiters, byte ∉ ev.command.str
  user : ∀ byte ∈ delimiters, byte ∉ ev.user.str
  pid : 0 ≤ ev.pid.toInt
  cwd : ∀ byte ∈ delimiters, byte ∉ ev.cwd.str
  timestamp : ∀ byte ∈ delimiters, byte ∉ ev.timestamp.str
  returnCode : ev.returnCode ≠ Int32.minValue

variable {sha256 : Bytes → Digest} {ev : AuditEvent}

theorem Loggable.carried (loggable : Loggable ev) (sealed : Sealed sha256 ev) : Carried ev where
  eventType := loggable.eventType quote (by decide)
  commandQuote := loggable.command quote (by decide)
  commandBackslash := loggable.command backslash (by decide)
  user := loggable.user quote (by decide)
  pid := loggable.pid
  cwd := loggable.cwd quote (by decide)
  timestamp := loggable.timestamp quote (by decide)
  returnCode := loggable.returnCode
  hash := sealed.hash_excludes (by decide)

theorem Loggable.oneLine (loggable : Loggable ev) (sealed : Sealed sha256 ev) : OneLine ev where
  eventType := loggable.eventType newline (by decide)
  command := loggable.command newline (by decide)
  user := loggable.user newline (by decide)
  cwd := loggable.cwd newline (by decide)
  timestamp := loggable.timestamp newline (by decide)
  hash := sealed.hash_excludes (by decide)

/-- The event comes back from the line with its eight fields, and once the hash is cleared
`audit_event_compute_hash` finds the stored one again. -/
def Verifies (sha256 : Bytes → Digest) (line : Bytes) (ev : AuditEvent) : Prop :=
  ∀ overflow, ∃ read cleared, auditEventFromJson overflow line = some (0, read) ∧
    SameFields read ev ∧ read.hash.write 0 0 = some cleared ∧
      (auditEventComputeHash sha256 { read with hash := cleared }).hash.str = read.hash.str

theorem jsonLine_verifies (terminated : ev.Terminated) (loggable : Loggable ev)
    (sealed : Sealed sha256 ev) : Verifies sha256 (auditEventToJson ev jsonEventMax) ev := by
  intro overflow
  obtain ⟨read, decodes, same⟩ :=
    (auditEventRoundTrip_iff terminated).mpr (loggable.carried sealed) overflow
  have inside : 0 < hashHexSize := by decide
  exact ⟨read, _, decodes, same, if_pos inside, recomputed_hash same sealed _⟩

theorem untouchedLog_verifies {log : Option Bytes} {events : List AuditEvent}
    (empty : log.getD [] = []) (bound : events.length ≤ cachedLinesMax)
    (terminated : ∀ ev ∈ events, ev.Terminated) (loggable : ∀ ev ∈ events, Loggable ev)
    (sealed : ∀ ev ∈ events, Sealed sha256 ev) :
    (localLogReadAll (events.foldl localLogWrite log)).length = events.length ∧
      ∀ (index : Nat) (ev : AuditEvent), events[index]? = some ev →
        ∃ line, (localLogReadAll (events.foldl localLogWrite log))[index]? = some line ∧
          Verifies sha256 line ev := by
  have oneLine : ∀ ev ∈ events, OneLine ev := fun ev member =>
    (loggable ev member).oneLine (sealed ev member)
  have lines : localLogReadAll (events.foldl localLogWrite log) =
      events.map (auditEventToJson · jsonEventMax) := by
    rw [localLogReadAll_take empty terminated oneLine,
      List.take_of_length_le (by simpa using bound)]
  rw [lines]
  refine ⟨by simp, ?_⟩
  intro index ev here
  have member := List.mem_of_getElem? here
  exact ⟨auditEventToJson ev jsonEventMax, by simp [here],
    jsonLine_verifies (terminated ev member) (loggable ev member) (sealed ev member)⟩

theorem apart_of_all {text : Bytes} (plain : text.all (· ∉ delimiters) = true) :
    ∀ byte ∈ delimiters, byte ∉ text := by
  intro byte member inside
  simpa [member] using List.all_eq_true.mp plain byte inside

theorem execveEvent_loggable {command : Bytes} (fits : command.length < commandMax)
    (excluded : ∀ byte ∈ delimiters, byte ∉ command) : Loggable (execveEvent command) where
  eventType := fun byte member => CharArray.ofStr_excludes (by decide)
    (apart_of_all (by decide) byte member)
  command := fun byte member => CharArray.ofStr_excludes fits.le (excluded byte member)
  user := fun byte member => CharArray.ofStr_excludes (by decide)
    (apart_of_all (by decide) byte member)
  pid := (by decide : 0 ≤ (9999 : Int32).toInt)
  cwd := fun byte member => CharArray.ofStr_excludes (by decide)
    (apart_of_all (by decide) byte member)
  timestamp := fun byte member => CharArray.ofStr_excludes (by decide)
    (apart_of_all (by decide) byte member)
  returnCode := (by decide : (0 : Int32) ≠ Int32.minValue)

theorem execveHashed_terminated {command : Bytes} (fits : command.length < commandMax) :
    (auditEventComputeHash sha256 (execveEvent command)).Terminated :=
  auditEventComputeHash_terminated _ (execveEvent_terminated fits)

theorem execveHashed_loggable {command : Bytes} (fits : command.length < commandMax)
    (excluded : ∀ byte ∈ delimiters, byte ∉ command) :
    Loggable (auditEventComputeHash sha256 (execveEvent command)) :=
  have loggable := execveEvent_loggable fits excluded
  ⟨loggable.eventType, loggable.command, loggable.user, loggable.pid, loggable.cwd, loggable.timestamp,
    loggable.returnCode⟩

def sealedEvent (command : Bytes) : AuditEvent :=
  auditEventComputeHash (fun _ => idDigest) (execveEvent command)

def echoDigest : Digest :=
  ⟨#[54, 177, 164, 33, 216, 178, 223, 214, 149, 147, 193, 14, 87, 221, 6, 101, 125, 45, 150, 138,
    190, 65, 11, 70, 200, 232, 97, 65, 26, 251, 194, 219], rfl⟩

/-- SHA-256 on the texts of the events for `ls` and `echo pid:1,`. -/
def twoSha256 (input : Bytes) : Digest :=
  if input = hashText (execveEvent (ascii "ls")) then lsDigest else echoDigest

def twoHashed : List AuditEvent :=
  [ascii "ls", ascii "echo pid:1,"].map (auditEventComputeHash twoSha256 <| execveEvent ·)

theorem twoSealedEvents_verify :
    (localLogReadAll (twoHashed.foldl localLogWrite (some []))).length = 2 ∧
      ∀ (index : Nat) (ev : AuditEvent), twoHashed[index]? = some ev →
        ∃ line, (localLogReadAll (twoHashed.foldl localLogWrite (some [])))[index]? = some line ∧
          Verifies twoSha256 line ev := by
  refine untouchedLog_verifies rfl (by decide) ?_ ?_ ?_
  · intro ev member
    simp only [twoHashed, List.map_cons, List.map_nil, List.mem_cons, List.not_mem_nil,
      or_false] at member
    rcases member with rfl | rfl <;> exact execveHashed_terminated (by decide)
  · intro ev member
    simp only [twoHashed, List.map_cons, List.map_nil, List.mem_cons, List.not_mem_nil,
      or_false] at member
    rcases member with rfl | rfl <;>
      exact execveHashed_loggable (by decide) (apart_of_all (by decide))
  · intro ev member
    obtain ⟨command, _, rfl⟩ := List.mem_map.mp member
    exact auditEventComputeHash_sealed _ _

end BlockchainAuditor
