import BlockchainAuditor.Library.LineReader
import BlockchainAuditor.EventEncoding

/-! The local log of `log_local.c`: one line for each event, appended by
`local_log_write` and read back by `local_log_read_all`. -/

namespace BlockchainAuditor

open CStrings KeyedText LineReader

def cachedLinesMax : Nat := 65536
def lineBufferSize : Nat := 8192

/-- The contents of the log file after `fopen(log_path, "a")` and `fprintf`; `none` is an
absent file. -/
def localLogWrite (log : Option Bytes) (ev : AuditEvent) : Option Bytes :=
  some (log.getD [] ++ (auditEventToJson ev jsonEventMax ++ [newline]))

def localLogReadAll : Option Bytes → List Bytes
  | none => []
  | some contents => readLines lineBufferSize cachedLinesMax contents

theorem localLogWrite_run (log : Option Bytes) (events : List AuditEvent) :
    (events.foldl localLogWrite log).getD [] =
      log.getD [] ++ (events.map (auditEventToJson · jsonEventMax)).flatMap
        (· ++ [newline]) := by
  induction events generalizing log with
  | nil => simp
  | cons ev rest ih =>
      rw [List.foldl_cons, ih]
      simp [localLogWrite]

structure OneLine (ev : AuditEvent) : Prop where
  eventType : newline ∉ ev.eventType.str
  command : newline ∉ ev.command.str
  user : newline ∉ ev.user.str
  cwd : newline ∉ ev.cwd.str
  timestamp : newline ∉ ev.timestamp.str
  hash : newline ∉ ev.hash.str

theorem recordItems_newline (ev : AuditEvent) :
    newline ∉ recordText (recordItems ev) ↔ OneLine ev := by
  rw [recordItems_control (by decide) ev]
  constructor
  · rintro ⟨eventType, command, user, cwd, timestamp, hash⟩
    exact ⟨eventType, command, user, cwd, timestamp, hash⟩
  · rintro ⟨eventType, command, user, cwd, timestamp, hash⟩
    exact ⟨eventType, command, user, cwd, timestamp, hash⟩

theorem localLogReadAll_eq (log : Option Bytes) :
    localLogReadAll log = readLines lineBufferSize cachedLinesMax (log.getD []) := by
  cases log with
  | none => simp [localLogReadAll, readLines, fgets, cachedLinesMax]
  | some contents => rfl

theorem localLogReadAll_bounds (log : Option Bytes) :
    (∀ line ∈ localLogReadAll log, newline ∉ line) ∧
      (localLogReadAll log).length ≤ cachedLinesMax := by
  rw [localLogReadAll_eq]
  exact ⟨fun line member => readLines_newlineFree member, readLines_length _ _ _⟩

/-- Of events without newlines the reader gives back the first 65536. -/
theorem localLogReadAll_take {log : Option Bytes} (empty : log.getD [] = [])
    {events : List AuditEvent} (terminated : ∀ ev ∈ events, ev.Terminated)
    (oneLine : ∀ ev ∈ events, OneLine ev) :
    localLogReadAll (events.foldl localLogWrite log) =
      (events.map (auditEventToJson · jsonEventMax)).take cachedLinesMax := by
  have text : ∀ ev ∈ events, auditEventToJson ev jsonEventMax = recordText (recordItems ev) :=
    fun ev member => auditEventToJson_eq (terminated ev member)
  rw [localLogReadAll_eq, localLogWrite_run, empty, List.nil_append, readLines_lines]
  · intro line member
    obtain ⟨ev, inside, rfl⟩ := List.mem_map.mp member
    rw [text ev inside]
    exact (recordItems_newline ev).mpr (oneLine ev inside)
  · intro line member
    obtain ⟨ev, inside, rfl⟩ := List.mem_map.mp member
    rw [text ev inside]
    exact recordItems_nulFree ev
  · intro line member
    obtain ⟨ev, inside, rfl⟩ := List.mem_map.mp member
    rw [text ev inside, ← jsonText_eq]
    exact jsonText_length (terminated ev inside)

theorem localLogReadAll_iff {events : List AuditEvent}
    (terminated : ∀ ev ∈ events, ev.Terminated) :
    localLogReadAll (events.foldl localLogWrite none) =
        events.map (auditEventToJson · jsonEventMax) ↔
      (∀ ev ∈ events, OneLine ev) ∧ events.length ≤ cachedLinesMax := by
  constructor
  · intro complete
    obtain ⟨newlineFree, bound⟩ := localLogReadAll_bounds (events.foldl localLogWrite none)
    rw [complete] at newlineFree bound
    refine ⟨fun ev member => (recordItems_newline ev).mp ?_, by simpa using bound⟩
    rw [← auditEventToJson_eq (terminated ev member)]
    exact newlineFree _ (List.mem_map_of_mem member)
  · rintro ⟨oneLine, bound⟩
    rw [localLogReadAll_take rfl terminated oneLine, List.take_of_length_le (by simpa using bound)]

theorem execveEvent_oneLine {command : Bytes} (fits : command.length < commandMax)
    (nulFree : (0 : UInt8) ∉ command) :
    OneLine (execveEvent command) ↔ newline ∉ command := by
  have spelled := CharArray.ofStr_str nulFree fits.le
  constructor
  · intro oneLine
    have plain := oneLine.command
    rwa [execveEvent, spelled] at plain
  · intro plain
    exact {
      eventType := CharArray.ofStr_excludes (by decide) (by decide)
      command := CharArray.ofStr_excludes fits.le plain
      user := CharArray.ofStr_excludes (by decide) (by decide)
      cwd := CharArray.ofStr_excludes (by decide) (by decide)
      timestamp := CharArray.ofStr_excludes (by decide) (by decide)
      hash := CharArray.ofStr_excludes (by decide) (by decide) }

theorem twoCommands_logged :
    localLogReadAll ([execveEvent (ascii "ls"), execveEvent (ascii "sh -c \"id\"")].foldl
        localLogWrite none) =
      [execveEvent (ascii "ls"), execveEvent (ascii "sh -c \"id\"")].map
        (auditEventToJson · jsonEventMax) := by
  refine (localLogReadAll_iff ?_).mpr ⟨?_, by decide⟩
  · intro ev member
    simp only [List.mem_cons, List.not_mem_nil, or_false] at member
    rcases member with rfl | rfl <;> exact execveEvent_terminated (by decide)
  · intro ev member
    simp only [List.mem_cons, List.not_mem_nil, or_false] at member
    rcases member with rfl | rfl <;>
      exact (execveEvent_oneLine (by decide) (by decide)).mpr (by decide)

theorem twoLineCommand_split :
    localLogReadAll ([execveEvent (ascii "sh -c id\nls")].foldl localLogWrite none) ≠
      [execveEvent (ascii "sh -c id\nls")].map (auditEventToJson · jsonEventMax) := by
  intro complete
  have newlineFree := (localLogReadAll_bounds
    ([execveEvent (ascii "sh -c id\nls")].foldl localLogWrite none)).1
  rw [complete] at newlineFree
  have plain := newlineFree _ (List.mem_map_of_mem (List.mem_singleton_self _))
  rw [auditEventToJson_eq (execveEvent_terminated (by decide)), recordItems_newline,
    execveEvent_oneLine (by decide) (by decide)] at plain
  exact plain (by decide)

end BlockchainAuditor
