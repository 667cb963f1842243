import BlockchainAuditor.IntegerText
import BlockchainAuditor.Library.CArrays
import BlockchainAuditor.Library.LineReader

/-! What `utils.c` reads of a process under `/proc`, of the user database and of the clock,
into buffers that need not end in a NUL. -/

namespace BlockchainAuditor

open CStrings CharArray LineReader

/-- A file open for reading, and whether reading on behind its bytes fails. -/
structure Stream where
  content : Bytes
  failing : Bool

def Stream.gets (size : Nat) (stream : Stream) : Option (Bytes × Stream) :=
  match fgets size stream.content with
  | none => none
  | some (line, rest) =>
    if stream.failing ∧ line.length < size - 1 ∧ line.getLast? ≠ some newline then none
    else some (line, { stream with content := rest })

structure LocalTime where
  year : Int
  month : Nat
  day : Nat
  hour : Nat
  minute : Nat
  second : Nat
  year_range : -2 ^ 31 < year ∧ year < 2 ^ 32
  month_le : month ≤ 12
  day_le : day ≤ 31
  hour_lt : hour < 24
  minute_lt : minute < 60
  second_le : second ≤ 60

/-- What the calls into the system answer. `malloc` is asked by the key of the field that
the memory is for, and `indeterminate` is what an array holds that was not written. -/
structure Host where
  fopen : Bytes → Option Stream
  realpath : Bytes → Option Bytes
  getpwuid : UInt32 → Option Bytes
  malloc : Bytes → Bool
  localTime : LocalTime
  indeterminate : (size : Nat) → CharArray size

def noon : LocalTime where
  year := 2024
  month := 1
  day := 1
  hour := 12
  minute := 0
  second := 0
  year_range := by decide
  month_le := by decide
  day_le := by decide
  hour_lt := by decide
  minute_lt := by decide
  second_le := by decide

def noonHost : Host where
  fopen _ := none
  realpath _ := none
  getpwuid _ := some (ascii "root")
  malloc _ := true
  localTime := noon
  indeterminate _ := .zero

def twoDigits (value : Nat) : Bytes := [digitByte (value / 10), digitByte (value % 10)]

def LocalTime.text (time : LocalTime) : Bytes :=
  formatInt time.year ++ ascii "-" ++ twoDigits time.month ++ ascii "-" ++ twoDigits time.day ++
    ascii "T" ++ twoDigits time.hour ++ ascii ":" ++ twoDigits time.minute ++ ascii ":" ++
    twoDigits time.second

def procPath (pid : Int32) (name : String) : Bytes :=
  snprintf 64 (ascii "/proc/" ++ formatInt pid.toInt ++ ascii "/" ++ ascii name)

def space : UInt8 := 32

variable {n : Nat} (host : Host)

def getTimestampIso8601 (buf : CharArray n) (size : Nat) : Option (CharArray n) :=
  let text := host.localTime.text
  if text.length < size then buf.overwrite 0 (cString text) else some (host.indeterminate n)

/-- `sscanf(line, "Uid:\t%u", &uid)`, for a line that starts with `Uid:`; `strtoul` reads
the number. -/
def scanUid (line : Bytes) : Option UInt32 :=
  (scanInteger (line.drop 4 ++ [0])).map fun value =>
    UInt32.ofInt (if value.natAbs < 2 ^ 64 then value else 2 ^ 64 - 1)

/-- The loop over the lines of the status file; a line takes at least one byte of it. -/
def readUid : Nat → Stream → UInt32
  | 0, _ => -1
  | left + 1, file =>
    match file.gets 256 with
    | none => -1
    | some (line, rest) =>
      if ascii "Uid:" <+: line then (scanUid line).getD (-1) else readUid left rest

def getUsernameByPid (pid : Int32) (buf : CharArray n) (size : Nat) : Option (CharArray n) :=
  match host.fopen (procPath pid "status") with
  | none => buf.copyFrom (cString (ascii "unknown")) size
  | some file =>
    let uid := readUid file.content.length file
    if uid = -1 then buf.copyFrom (cString (ascii "unknown")) size
    else
      match host.getpwuid uid with
      | some name => buf.copyFrom (cString name) (size - 1)
      | none => buf.print size (formatInt uid.toNat)

def getCwdByPid (pid : Int32) (buf : CharArray n) (size : Nat) : Option (CharArray n) :=
  match host.realpath (procPath pid "cwd") with
  | some path => buf.copyFrom (cString path) (size - 1)
  | none => buf.copyFrom (cString (ascii "/")) (size - 1)

/-- The loop over the characters of the file: the buffer and `pos` behind it. -/
def copyCmdline (size : Nat) : Bytes → Nat → CharArray n → Option (CharArray n × Nat)
  | [], pos, buf => some (buf, pos)
  | c :: rest, pos, buf =>
    if pos < size - 1 then
      if c = 0 then
        if 0 < pos ∧ pos < size - 1 then do copyCmdline size rest (pos + 1) (← buf.write pos space)
        else copyCmdline size rest pos buf
      else do copyCmdline size rest (pos + 1) (← buf.write pos c)
    else some (buf, pos)

def readProcCmdline (pid : Int32) (buf : CharArray n) (size : Nat) : Option (CharArray n) :=
  match host.fopen (procPath pid "cmdline") with
  | none => buf.write 0 0
  | some file => do
    let (buf, pos) ← copyCmdline size file.content 0 buf
    let buf ← buf.write pos 0
    if 0 < pos ∧ buf.cells[pos - 1]? = some space then buf.write (pos - 1) 0 else some buf

def readProcComm (pid : Int32) (buf : CharArray n) (size : Nat) : Option (CharArray n) :=
  match host.fopen (procPath pid "comm") with
  | none => buf.write 0 0
  | some file =>
    match file.gets size with
    -- at the end of the file the buffer stays as it is
    | none => some (if file.failing then host.indeterminate n else buf)
    | some (line, _) => do
      let buf ← buf.overwrite 0 (cString line)
      let text ← buf.readStr
      if text.getLast? = some newline then buf.write (text.length - 1) 0 else some buf

theorem localTime_text_length (time : LocalTime) : time.text.length < 32 := by
  have range := time.year_range
  have digits : (Decimal.decimalDigits time.year.natAbs).length ≤ 10 :=
    Decimal.decimalDigits_length (by decide) (by omega)
  have year : (formatInt time.year).length ≤ 11 := by
    unfold formatInt
    split <;> simp <;> omega
  simp only [LocalTime.text, twoDigits, List.length_append, List.length_cons, List.length_nil,
    show (ascii "-").length = 1 by decide, show (ascii "T").length = 1 by decide,
    show (ascii ":").length = 1 by decide]
  omega

variable {host} {buf : CharArray n} {size : Nat}

theorem getTimestampIso8601_completes (fits : 32 ≤ n) (size : Nat) :
    Completes (getTimestampIso8601 host buf size) fun _ => True := by
  have short := localTime_text_length host.localTime
  unfold getTimestampIso8601
  dsimp only
  split
  · refine (overwrite_completes ?_).mono fun _ _ => trivial
    simp [cString]
    omega
  · exact completes_some trivial

theorem copyString_completes (text : Bytes) {count : Nat} (fits : count ≤ n) :
    Completes (buf.copyFrom (cString text) count) fun _ => True :=
  (copyFrom_completes fits (cString_readable text count)).mono fun _ _ => trivial

theorem print_completes (text : Bytes) (fits : size ≤ n) :
    Completes (buf.print size text) fun _ => True := by
  unfold CharArray.print
  split
  · exact completes_some trivial
  · refine (overwrite_completes ?_).mono fun _ _ => trivial
    have short := List.length_take_le (size - 1) text
    simp [cString, snprintf]
    omega

theorem getUsernameByPid_completes (pid : Int32) (fits : size ≤ n) :
    Completes (getUsernameByPid host pid buf size) fun _ => True := by
  unfold getUsernameByPid
  split
  · exact copyString_completes _ fits
  · dsimp only
    split
    · exact copyString_completes _ fits
    · split
      · exact copyString_completes _ (by omega)
      · exact print_completes _ fits

theorem getCwdByPid_completes (pid : Int32) (fits : size ≤ n) :
    Completes (getCwdByPid host pid buf size) fun _ => True := by
  unfold getCwdByPid
  split
  · exact copyString_completes _ (by omega)
  · exact copyString_completes _ (by omega)

theorem copyCmdline_completes (content : Bytes) {pos : Nat} (start : pos ≤ size - 1)
    (fits : size ≤ n) :
    Completes (copyCmdline size content pos buf) fun result => result.2 ≤ size - 1 := by
  induction content generalizing pos buf with
  | nil => exact completes_some start
  | cons c rest ih =>
      rw [copyCmdline]
      split
      · split
        · split
          · exact (write_completes (by omega) space).bind fun _ _ => ih (by omega)
          · exact ih start
        · exact (write_completes (by omega) c).bind fun _ _ => ih (by omega)
      · exact completes_some start

theorem readProcCmdline_completes (pid : Int32) (positive : 0 < size) (fits : size ≤ n) :
    Completes (readProcCmdline host pid buf size) fun _ => True := by
  unfold readProcCmdline
  split
  · exact (write_completes (by omega) 0).mono fun _ _ => trivial
  · refine (copyCmdline_completes _ (Nat.zero_le _) fits).bind fun ⟨read, pos⟩ bound => ?_
    dsimp only at bound ⊢
    refine (write_completes (by omega) 0).bind fun ended _ => ?_
    split
    · exact (write_completes (by omega) 0).mono fun _ _ => trivial
    · exact completes_some trivial

theorem gets_length {file : Stream} {line : Bytes} {rest : Stream}
    (read : file.gets size = some (line, rest)) : line.length ≤ size - 1 := by
  unfold Stream.gets fgets at read
  split at read
  · simp at read
  · rename_i found
    split at found
    · simp at found
    · split at read
      · simp at read
      · obtain ⟨rfl, rfl⟩ := Prod.mk.inj (Option.some.inj found)
        obtain ⟨rfl, rfl⟩ := Prod.mk.inj (Option.some.inj read)
        exact takeLine_length _ _

theorem readProcComm_completes (pid : Int32) (positive : 0 < size) (fits : size ≤ n) :
    Completes (readProcComm host pid buf size) fun _ => True := by
  unfold readProcComm
  split
  · exact (write_completes (by omega) 0).mono fun _ _ => trivial
  · split
    · exact completes_some trivial
    · rename_i line _ read
      have short := gets_length read
      have room : 0 + (cString line).length ≤ n := by
        simp [cString]
        omega
      refine (overwrite_completes room).bind fun written cells => ?_
      have terminated : written.Terminated := by
        rw [Terminated, cells]
        simp [cString]
      have inside := str_length_lt terminated
      rw [readStr, if_pos terminated]
      change Completes (if written.str.getLast? = some newline then
        written.write (written.str.length - 1) 0 else some written) _
      split
      · exact (write_completes (by omega) 0).mono fun _ _ => trivial
      · exact completes_some trivial

end BlockchainAuditor
