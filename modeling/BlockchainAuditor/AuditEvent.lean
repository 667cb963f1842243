import BlockchainAuditor.Library.CArrays
import BlockchainAuditor.Library.KeyedText
import BlockchainAuditor.Library.Decimal

/-! The audit record of `event.c` and `crypto.c`: its hash, its JSON text and the
reader of that text. -/

namespace BlockchainAuditor

open CStrings Decimal
open KeyedText (quote)

def eventTypeMax : Nat := 16
def commandMax : Nat := 4096
def userMax : Nat := 64
def cwdMax : Nat := 1024
def timestampMax : Nat := 32
def hashHexSize : Nat := 65
def jsonEventMax : Nat := 8192

structure AuditEvent where
  eventType : CharArray eventTypeMax
  command : CharArray commandMax
  user : CharArray userMax
  pid : Int32
  cwd : CharArray cwdMax
  timestamp : CharArray timestampMax
  returnCode : Int32
  hash : CharArray hashHexSize
  deriving DecidableEq

def backslash : UInt8 := 92
def minus : UInt8 := 45

/-! SHA-256 is a parameter: a function from byte strings to 32-byte digests. -/

abbrev Digest := Vector UInt8 32

def hexDigit (value : UInt8) : UInt8 := if value < 10 then 48 + value else 87 + value

def hexByte (byte : UInt8) : Bytes := [hexDigit (byte / 16), hexDigit (byte % 16)]

def hexDigest (digest : Digest) : Bytes := digest.toList.flatMap hexByte

theorem hexDigest_length (digest : Digest) : (hexDigest digest).length = 64 := by
  simp [hexDigest, hexByte]

def sha256Hash (sha256 : Bytes → Digest) (input : Bytes) : CharArray hashHexSize :=
  ⟨hexDigest (sha256 input) ++ [0], by simp [hexDigest_length, hashHexSize]⟩

def digitByte (digit : Nat) : UInt8 := (48 + digit).toUInt8

def formatInt (value : Int) : Bytes :=
  let digits := (decimalDigits value.natAbs).map digitByte
  if value < 0 then minus :: digits else digits

/-- The text that `audit_event_compute_hash` formats. -/
def hashText (ev : AuditEvent) : Bytes :=
  ascii "\x7b\"event_type\":\"" ++ ev.eventType.str ++ ascii "\",\"command\":\"" ++ ev.command.str ++
  ascii "\",\"user\":\"" ++ ev.user.str ++ ascii "\"," ++
  ascii "\"pid\":" ++ formatInt ev.pid.toInt ++ ascii ",\"cwd\":\"" ++ ev.cwd.str ++
  ascii "\",\"timestamp\":\"" ++ ev.timestamp.str ++ ascii "\",\"return_code\":" ++
  formatInt ev.returnCode.toInt ++ ascii "\x7d"

def auditEventComputeHash (sha256 : Bytes → Digest) (ev : AuditEvent) : AuditEvent :=
  { ev with hash := sha256Hash sha256 (snprintf jsonEventMax (hashText ev)) }

/-- The text that `audit_event_to_json` formats. -/
def jsonText (ev : AuditEvent) : Bytes :=
  ascii "\x7b\"event_type\":\"" ++ ev.eventType.str ++ ascii "\",\"command\":\"" ++ ev.command.str ++
  ascii "\",\"user\":\"" ++ ev.user.str ++ ascii "\"," ++
  ascii "\"pid\":" ++ formatInt ev.pid.toInt ++ ascii ",\"cwd\":\"" ++ ev.cwd.str ++
  ascii "\",\"timestamp\":\"" ++ ev.timestamp.str ++ ascii "\",\"return_code\":" ++
  formatInt ev.returnCode.toInt ++ ascii ",\"hash\":\"" ++ ev.hash.str ++ ascii "\"\x7d"

def auditEventToJson (ev : AuditEvent) (bufSize : Nat) : Bytes := snprintf bufSize (jsonText ev)

/-! `audit_event_from_json`. A pointer into the text is the memory from it on, up to
and including the NUL, and `none` is an access outside the text or an array. -/

/-- What an `int` operation gives when its exact result is out of range: some value,
or nothing, as C leaves open. -/
abbrev Overflow := Int → Option Int32

def narrow (overflow : Overflow) (exact : Int) : Option Int32 :=
  if Int32.minValue.toInt ≤ exact ∧ exact ≤ Int32.maxValue.toInt then some (Int32.ofInt exact)
  else overflow exact

/-- `while (*p && *p != '"' && i < limit) field[i++] = *p++; field[i] = '\0';` -/
def copyQuoted {size : Nat} (limit : Nat) :
    Bytes → Nat → CharArray size → Option (CharArray size)
  | [], _, _ => none
  | c :: rest, i, field =>
    if c ≠ 0 ∧ c ≠ quote ∧ i < limit then do
      copyQuoted limit rest (i + 1) (← field.write i c)
    else field.write i 0

def copyCommand {size : Nat} (limit : Nat) :
    Bytes → Nat → CharArray size → Option (CharArray size)
  | [], _, _ => none
  | c :: rest, i, field =>
    if c ≠ 0 ∧ c ≠ quote ∧ i < limit then
      if c = backslash then
        match rest with
        | [] => none
        | next :: after =>
          if next ≠ 0 then do copyCommand limit after (i + 1) (← field.write i next)
          else do copyCommand limit (next :: after) (i + 1) (← field.write i c)
      else do copyCommand limit rest (i + 1) (← field.write i c)
    else field.write i 0

def isDigit (c : UInt8) : Bool := 48 ≤ c && c ≤ 57

/-- `while (*p && *p >= '0' && *p <= '9') { value = value * 10 + (*p - '0'); p++; }` -/
def readDigits (overflow : Overflow) : Bytes → Int32 → Option Int32
  | [], _ => none
  | c :: rest, value =>
    if c ≠ 0 ∧ isDigit c then do
      let scaled ← narrow overflow (value.toInt * 10)
      let next ← narrow overflow (scaled.toInt + (c.toNat - 48 : Int))
      readDigits overflow rest next
    else some value

def readReturnCode (overflow : Overflow) : Bytes → Option Int32
  | [] => none
  | c :: rest =>
    if c = minus then do narrow overflow ((← readDigits overflow rest 0).toInt * -1)
    else do narrow overflow ((← readDigits overflow (c :: rest) 0).toInt * 1)

def AuditEvent.zero : AuditEvent where
  eventType := .zero
  command := .zero
  user := .zero
  pid := 0
  cwd := .zero
  timestamp := .zero
  returnCode := 0
  hash := .zero

/-- The arguments `type` and `cmd` are the memory from the pointer to the end of its array. -/
def auditEventInit (type cmd : Bytes) (pid returnCode : Int32) : Option AuditEvent := do
  let ev := AuditEvent.zero
  let ev := { ev with eventType := ← ev.eventType.copyFrom type (eventTypeMax - 1) }
  let ev := { ev with command := ← ev.command.copyFrom cmd (commandMax - 1) }
  let ev := { ev with pid, returnCode }
  let ev := { ev with user := ← ev.user.copyFrom (cString (ascii "unknown")) (userMax - 1) }
  return { ev with cwd := ← ev.cwd.copyFrom (cString (ascii "/")) (cwdMax - 1) }

/-- `p = strstr(text, key)` and, unless it is null, `p += length`. -/
def findKey (text : Bytes) (key : String) (length : Nat) : Option Bytes :=
  (strstr (ascii key) text).map (List.drop length)

/-- The return value and the event, for a text given without its NUL. -/
def auditEventFromJson (overflow : Overflow) (json : Bytes) : Option (Int × AuditEvent) := do
  let text := json ++ [0]
  let ev := AuditEvent.zero
  let some p := findKey text "\"event_type\":\"" 14 | return (-1, ev)
  let ev := { ev with eventType := ← copyQuoted (eventTypeMax - 1) p 0 ev.eventType }
  let some p := findKey text "\"command\":\"" 11 | return (-1, ev)
  let ev := { ev with command := ← copyCommand (commandMax - 1) p 0 ev.command }
  let some p := findKey text "\"user\":\"" 8 | return (-1, ev)
  let ev := { ev with user := ← copyQuoted (userMax - 1) p 0 ev.user }
  let some p := findKey text "\"pid\":" 6 | return (-1, ev)
  let ev := { ev with pid := ← readDigits overflow p 0 }
  let some p := findKey text "\"cwd\":\"" 7 | return (-1, ev)
  let ev := { ev with cwd := ← copyQuoted (cwdMax - 1) p 0 ev.cwd }
  let some p := findKey text "\"timestamp\":\"" 13 | return (-1, ev)
  let ev := { ev with timestamp := ← copyQuoted (timestampMax - 1) p 0 ev.timestamp }
  let some p := findKey text "\"return_code\":" 14 | return (-1, ev)
  let ev := { ev with returnCode := ← readReturnCode overflow p }
  let some p := findKey text "\"hash\":\"" 8 | return (-1, ev)
  let ev := { ev with hash := ← copyQuoted (hashHexSize - 1) p 0 ev.hash }
  return (0, ev)

end BlockchainAuditor
