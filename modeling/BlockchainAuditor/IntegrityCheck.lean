import BlockchainAuditor.EventRoundTrip
import BlockchainAuditor.Library.CArrays
import BlockchainAuditor.Library.KeyedTextUnique
import Mathlib.Data.Set.Function

/-! The line check of `cmd_integrity_test`, and what a stored hash says about the line. -/

namespace BlockchainAuditor

open CStrings Decimal KeyedText

inductive LineVerdict
  | parseError
  | hashMismatch
  | verified
  deriving DecidableEq

/-- One turn of the loop over the log. `storedHash` is the local array as it was before
the `strncpy`, which leaves its last byte. -/
def checkLine (sha256 : Bytes → Digest) (overflow : Overflow) (storedHash : CharArray hashHexSize)
    (line : Bytes) : Option LineVerdict := do
  let (rc, ev) ← auditEventFromJson overflow line
  if rc ≠ 0 then return .parseError
  let storedHash ← storedHash.strncpy ev.hash.cells (hashHexSize - 1)
  let ev := { ev with hash := ← ev.hash.write 0 0 }
  let ev := auditEventComputeHash sha256 ev
  if ← strcmpZero ev.hash.cells storedHash.cells then return .verified else return .hashMismatch

theorem hexDigit_toNat {value : UInt8} (small : value < 16) :
    (hexDigit value).toNat = if value.toNat < 10 then 48 + value.toNat else 87 + value.toNat := by
  have bound := UInt8.lt_iff_toNat_lt.mp small
  simp only [UInt8.reduceToNat] at bound
  unfold hexDigit
  simp only [UInt8.lt_iff_toNat_lt, UInt8.reduceToNat]
  split <;> simp [UInt8.toNat_add] <;> omega

theorem hexDigit_injective {left right : UInt8} (small : left < 16) (otherSmall : right < 16)
    (same : hexDigit left = hexDigit right) : left = right := by
  have codes := congrArg UInt8.toNat same
  rw [hexDigit_toNat small, hexDigit_toNat otherSmall] at codes
  have bound := UInt8.lt_iff_toNat_lt.mp small
  have otherBound := UInt8.lt_iff_toNat_lt.mp otherSmall
  simp only [UInt8.reduceToNat] at bound otherBound
  apply UInt8.toNat_inj.mp
  split at codes <;> split at codes <;> omega

theorem high_lt (byte : UInt8) : byte / 16 < 16 := by
  have bound := byte.toNat_lt
  rw [UInt8.lt_iff_toNat_lt, UInt8.toNat_div]
  simp only [UInt8.reduceToNat]
  omega

theorem low_lt (byte : UInt8) : byte % 16 < 16 := by
  rw [UInt8.lt_iff_toNat_lt, UInt8.toNat_mod]
  simp only [UInt8.reduceToNat]
  omega

theorem hexByte_injective {left right : UInt8} (same : hexByte left = hexByte right) :
    left = right := by
  simp only [hexByte, List.cons.injEq, and_true] at same
  have highs := congrArg UInt8.toNat
    (hexDigit_injective (high_lt left) (high_lt right) same.1)
  have lows := congrArg UInt8.toNat (hexDigit_injective (low_lt left) (low_lt right) same.2)
  rw [UInt8.toNat_div, UInt8.toNat_div] at highs
  rw [UInt8.toNat_mod, UInt8.toNat_mod] at lows
  apply UInt8.toNat_inj.mp
  simp only [UInt8.reduceToNat] at highs lows
  omega

theorem hexDigest_injective {left right : Digest} (same : hexDigest left = hexDigest right) :
    left = right := by
  have blocks : ∀ bytes others : List UInt8,
      bytes.flatMap hexByte = others.flatMap hexByte → bytes = others := by
    intro bytes
    induction bytes with
    | nil =>
        intro others same
        cases others with
        | nil => rfl
        | cons _ _ => simp [hexByte] at same
    | cons byte bytes ih =>
        intro others same
        cases others with
        | nil => simp [hexByte] at same
        | cons other others =>
            obtain ⟨heads, tails⟩ := List.append_inj same rfl
            rw [hexByte_injective heads, ih others tails]
  exact Vector.toList_inj.mp (blocks _ _ same)

theorem hexDigest_excludes {byte : UInt8} (notHex : byte < 48) (digest : Digest) :
    byte ∉ hexDigest digest := by
  intro member
  obtain ⟨source, _, digit⟩ := List.mem_flatMap.mp member
  have high : ∀ value : UInt8, value < 16 → byte ≠ hexDigit value := by
    rintro value small rfl
    rw [UInt8.lt_iff_toNat_lt, hexDigit_toNat small] at notHex
    simp only [UInt8.reduceToNat] at notHex
    split at notHex <;> omega
  simp only [hexByte, List.mem_cons, List.not_mem_nil, or_false] at digit
  rcases digit with first | second
  · exact high _ (high_lt source) first
  · exact high _ (low_lt source) second

theorem hexDigest_nulFree (digest : Digest) : (0 : UInt8) ∉ hexDigest digest :=
  hexDigest_excludes (by decide) digest

theorem hashText_eq (ev : AuditEvent) : hashText ev = recordText ((recordItems ev).take 7) := by
  unfold hashText
  simp only [recordItems, List.take_succ_cons, List.take_zero, recordText, tailText, itemText,
    List.append_assoc, List.cons_append, List.nil_append]
  rfl

theorem hashText_length {ev : AuditEvent} (terminated : ev.Terminated) :
    (hashText ev).length < jsonEventMax := by
  have whole := jsonText_length terminated
  have longer : (jsonText ev).length = (hashText ev).length + ev.hash.str.length + 10 := by
    unfold jsonText hashText
    simp [ascii]
    omega
  omega

theorem decimalText_injective {left right : Nat}
    (same : (decimalDigits left).map digitByte = (decimalDigits right).map digitByte) :
    left = right := by
  refine decimalDigits_injective ?_
  rw [← decimalText_digits left, same, decimalText_digits]

theorem decimalText_unsigned {number : Nat} {rest : Bytes} :
    minus :: rest ≠ (decimalDigits number).map digitByte := by
  intro same
  obtain ⟨digit, member, sign⟩ := List.mem_map.mp (same ▸ List.mem_cons_self)
  have isDigit := (digitByte_digit (decimalDigits_lt member)).2.1
  rw [sign] at isDigit
  exact absurd isDigit (by decide)

theorem formatInt_injective {left right : Int} (same : formatInt left = formatInt right) :
    left = right := by
  unfold formatInt at same
  split at same <;> split at same
  · have values := decimalText_injective (List.cons.inj same).2
    omega
  · exact absurd same decimalText_unsigned
  · exact absurd same.symm decimalText_unsigned
  · have values := decimalText_injective same
    omega

/-- What the reader guarantees of the strings around the command. -/
structure Unquoted (ev : AuditEvent) : Prop where
  eventType : quote ∉ ev.eventType.str
  user : quote ∉ ev.user.str
  cwd : quote ∉ ev.cwd.str
  timestamp : quote ∉ ev.timestamp.str

theorem hashText_injective {left right : AuditEvent} (unquoted : Unquoted left)
    (otherUnquoted : Unquoted right) (same : hashText left = hashText right) :
    SameContent left right := by
  have delimited : ∀ ev : AuditEvent, Unquoted ev →
      ∀ item ∈ (recordItems ev).take 1 ++ ((recordItems ev).drop 2).take 5, Delimited item := by
    intro ev unquoted item member
    have number : ∀ value : Int, comma ∉ formatInt value ∧ colon ∉ formatInt value :=
      fun value => ⟨formatInt_excludes comma (by decide) (by decide) value,
        formatInt_excludes colon (by decide) (by decide) value⟩
    simp only [recordItems, List.take_succ_cons, List.take_zero, List.drop_succ_cons,
      List.drop_zero, List.mem_append, List.mem_cons, List.not_mem_nil, or_false] at member
    rcases member with rfl | rfl | rfl | rfl | rfl | rfl
    · exact unquoted.eventType
    · exact unquoted.user
    · exact number _
    · exact unquoted.cwd
    · exact unquoted.timestamp
    · exact number _
  rw [hashText_eq, hashText_eq] at same
  have beforeShapes : ((recordItems left).take 1).map shape =
      ((recordItems right).take 1).map shape := by simp [recordItems, shape]
  have afterShapes : (((recordItems left).drop 2).take 5).map shape =
      (((recordItems right).drop 2).take 5).map shape := by simp [recordItems, shape]
  obtain ⟨befores, commands, afters⟩ := recordText_injective beforeShapes afterShapes
    (delimited left unquoted) (delimited right otherUnquoted) same
  simp only [recordItems, List.take_succ_cons, List.take_zero, List.drop_succ_cons,
    List.drop_zero, List.cons.injEq, Prod.mk.injEq, Value.quoted.injEq, Value.bare.injEq,
    true_and, and_true] at befores afters
  obtain ⟨user, pid, cwd, timestamp, returnCode⟩ := afters
  exact ⟨befores, commands, user, Int32.toInt_inj.mp (formatInt_injective pid), cwd, timestamp,
    Int32.toInt_inj.mp (formatInt_injective returnCode)⟩

theorem quotedField_length (limit : Nat) (text : Bytes) :
    (quotedField limit text).length ≤ limit := by
  simp [quotedField]

theorem quotedField_unquoted (limit : Nat) (text : Bytes) : quote ∉ quotedField limit text := by
  intro member
  have kept := List.mem_takeWhile_imp (List.mem_of_mem_take member)
  simp at kept

theorem readString {size : Nat} (positive : 0 < size) {read : CharArray size} {key json : Bytes}
    (accepted : ∃ rest, textAfter key json = some rest ∧
      read = .ofStr (quotedField (size - 1) rest)) : read.Terminated ∧ quote ∉ read.str := by
  obtain ⟨rest, _, rfl⟩ := accepted
  have short := quotedField_length (size - 1) rest
  exact ⟨CharArray.ofStr_terminated (by omega),
    CharArray.ofStr_excludes (by omega) (quotedField_unquoted (size - 1) rest)⟩

theorem accepts_terminated {overflow : Overflow} {json : Bytes} {ev : AuditEvent}
    (accepts : Accepts overflow json ev) : ev.Terminated where
  eventType := (readString (by decide) accepts.eventType).1
  command := by
    obtain ⟨rest, _, value⟩ := accepts.command
    rw [value]
    refine CharArray.ofStr_terminated ?_
    simp [commandMax]
  user := (readString (by decide) accepts.user).1
  cwd := (readString (by decide) accepts.cwd).1
  timestamp := (readString (by decide) accepts.timestamp).1
  hash := (readString (by decide) accepts.hash).1

theorem accepts_unquoted {overflow : Overflow} {json : Bytes} {ev : AuditEvent}
    (accepts : Accepts overflow json ev) : Unquoted ev where
  eventType := (readString (by decide) accepts.eventType).2
  user := (readString (by decide) accepts.user).2
  cwd := (readString (by decide) accepts.cwd).2
  timestamp := (readString (by decide) accepts.timestamp).2

theorem sha256Hash_str (sha256 : Bytes → Digest) (input : Bytes) :
    (sha256Hash sha256 input).str = hexDigest (sha256 input) := by
  have visible := ne_of_excluded (hexDigest_nulFree (sha256 input))
  rw [CharArray.str, sha256Hash, List.takeWhile_append_of_pos visible]
  simp

theorem checkLine_eq {sha256 : Bytes → Digest} {overflow : Overflow} {line : Bytes}
    {ev : AuditEvent} (nulFree : (0 : UInt8) ∉ line) (storedHash : CharArray hashHexSize)
    (decodes : auditEventFromJson overflow line = some (0, ev)) :
    checkLine sha256 overflow storedHash line =
      if ev.hash.str = hexDigest (sha256 (hashText ev)) ∧ storedHash.Ended then some .verified
      else some .hashMismatch := by
  have terminated := accepts_terminated ((auditEventFromJson_accepts nulFree).mp decodes)
  obtain ⟨last, behind, ended⟩ := storedHash.last_cell (by decide)
  obtain ⟨copied, copies, cells⟩ := storedHash.strncpy_cells ev.hash.cells
    (by decide : hashHexSize - 1 ≤ hashHexSize)
  rw [behind] at cells
  have hexFree := hexDigest_nulFree (sha256 (hashText ev))
  have hashFree := ev.hash.str_nulFree
  have compared : strcmpZero (hexDigest (sha256 (hashText ev)) ++ [0]) copied.cells =
      some (decide (ev.hash.str = hexDigest (sha256 (hashText ev)) ∧ storedHash.Ended)) := by
    have hexLength := hexDigest_length (sha256 (hashText ev))
    have fits := CharArray.str_length_lt terminated.hash
    change copied.cells = (ev.hash.str ++ List.replicate (hashHexSize - 1) 0).take (hashHexSize - 1) ++
      [last] at cells
    by_cases full : ev.hash.str.length = hashHexSize - 1
    · rw [cells, List.take_append_of_le_length (by omega), List.take_of_length_le (by omega)]
      by_cases zero : last = 0
      · rw [zero, strcmpZero_strings hexFree hashFree]
        simp [ended, zero, eq_comm]
      · rw [strcmpZero_unended hexFree (by rw [hexLength, full]; rfl) zero]
        simp [ended, zero]
    · obtain ⟨room, split⟩ : ∃ room, hashHexSize - 1 - ev.hash.str.length = room + 1 :=
        ⟨hashHexSize - 1 - ev.hash.str.length - 1, by omega⟩
      have padded : (ev.hash.str ++ List.replicate (hashHexSize - 1) 0).take (hashHexSize - 1) ++
          [last] = ev.hash.str ++ 0 :: (List.replicate room 0 ++ [last]) := by
        rw [List.take_append, List.take_of_length_le (by omega), List.take_replicate,
          Nat.min_eq_left (by omega), split, List.replicate_succ]
        simp
      have different : hexDigest (sha256 (hashText ev)) ≠ ev.hash.str := by
        intro same
        rw [same] at hexLength
        exact full (by rw [hexLength]; rfl)
      rw [cells, padded, strcmpZero_strings hexFree hashFree]
      simp [different, Ne.symm different]
  simp only [checkLine, decodes, copies, CharArray.write, auditEventComputeHash, sha256Hash,
    if_pos (by decide : 0 < hashHexSize), Option.bind_eq_bind, Option.bind_some, ne_eq, not_true,
    if_false]
  change ((strcmpZero (hexDigest (sha256 (snprintf jsonEventMax (hashText ev))) ++ [0])
    copied.cells).bind fun equal =>
      if equal = true then pure LineVerdict.verified else pure LineVerdict.hashMismatch) = _
  rw [snprintf_fits (hashText_length terminated), compared, Option.bind_some]
  simp only [decide_eq_true_eq]
  rfl

theorem verified_hash {sha256 : Bytes → Digest} {overflow : Overflow}
    {storedHash : CharArray hashHexSize} {line : Bytes} {ev : AuditEvent}
    (nulFree : (0 : UInt8) ∉ line) (decodes : auditEventFromJson overflow line = some (0, ev))
    (verified : checkLine sha256 overflow storedHash line = some .verified) :
    ev.hash.str = hexDigest (sha256 (hashText ev)) := by
  rw [checkLine_eq nulFree storedHash decodes] at verified
  by_contra different
  simp [different] at verified

theorem integrityCheck_binds {sha256 : Bytes → Digest} {overflow otherOverflow : Overflow}
    {storedHash otherStoredHash : CharArray hashHexSize} {line otherLine : Bytes}
    {ev other : AuditEvent} (nulFree : (0 : UInt8) ∉ line) (otherNulFree : (0 : UInt8) ∉ otherLine)
    (decodes : auditEventFromJson overflow line = some (0, ev))
    (otherDecodes : auditEventFromJson otherOverflow otherLine = some (0, other))
    (verified : checkLine sha256 overflow storedHash line = some .verified)
    (otherVerified : checkLine sha256 otherOverflow otherStoredHash otherLine = some .verified)
    (sameHash : ev.hash.str = other.hash.str)
    (collisionFree : Set.InjOn sha256 {hashText ev, hashText other}) : SameContent ev other := by
  have accepts := (auditEventFromJson_accepts nulFree).mp decodes
  have otherAccepts := (auditEventFromJson_accepts otherNulFree).mp otherDecodes
  have digests : sha256 (hashText ev) = sha256 (hashText other) := by
    refine hexDigest_injective ?_
    rw [← verified_hash nulFree decodes verified, sameHash,
      verified_hash otherNulFree otherDecodes otherVerified]
  refine hashText_injective (accepts_unquoted accepts) (accepts_unquoted otherAccepts) ?_
  exact collisionFree (by simp) (by simp) digests

def Sealed (sha256 : Bytes → Digest) (ev : AuditEvent) : Prop :=
  auditEventComputeHash sha256 ev = ev

instance (sha256 : Bytes → Digest) (ev : AuditEvent) : Decidable (Sealed sha256 ev) :=
  inferInstanceAs (Decidable (auditEventComputeHash sha256 ev = ev))

theorem auditEventComputeHash_sealed (sha256 : Bytes → Digest) (ev : AuditEvent) :
    Sealed sha256 (auditEventComputeHash sha256 ev) := rfl

theorem auditEventComputeHash_terminated (sha256 : Bytes → Digest) {ev : AuditEvent}
    (terminated : ev.Terminated) : (auditEventComputeHash sha256 ev).Terminated where
  eventType := terminated.eventType
  command := terminated.command
  user := terminated.user
  cwd := terminated.cwd
  timestamp := terminated.timestamp
  hash := by
    change (0 : UInt8) ∈ hexDigest _ ++ [0]
    simp

theorem Sealed.hash_eq {sha256 : Bytes → Digest} {ev : AuditEvent} (sealed : Sealed sha256 ev) :
    ev.hash = sha256Hash sha256 (snprintf jsonEventMax (hashText ev)) :=
  (congrArg AuditEvent.hash sealed).symm

theorem Sealed.hash_excludes {sha256 : Bytes → Digest} {ev : AuditEvent}
    (sealed : Sealed sha256 ev) {byte : UInt8} (notHex : byte < 48) : byte ∉ ev.hash.str := by
  rw [sealed.hash_eq, sha256Hash_str]
  exact hexDigest_excludes notHex _

theorem hashText_congr {left right : AuditEvent} (same : SameContent left right) :
    hashText left = hashText right := by
  unfold hashText
  rw [same.eventType, same.command, same.user, same.pid, same.cwd, same.timestamp,
    same.returnCode]

theorem recomputed_hash {sha256 : Bytes → Digest} {read ev : AuditEvent} (same : SameFields read ev)
    (sealed : Sealed sha256 ev) (cleared : CharArray hashHexSize) :
    (auditEventComputeHash sha256 { read with hash := cleared }).hash.str = read.hash.str := by
  have text : hashText { read with hash := cleared } = hashText ev :=
    hashText_congr ⟨same.eventType, same.command, same.user, same.pid, same.cwd, same.timestamp,
      same.returnCode⟩
  rw [same.hash, sealed.hash_eq, ← text]
  rfl

def idDigest : Digest :=
  ⟨#[62, 247, 164, 110, 193, 47, 160, 91, 182, 49, 184, 253, 179, 35, 92, 176, 42, 173, 104, 3,
    3, 59, 241, 159, 151, 8, 169, 84, 88, 12, 198, 227], rfl⟩

def lsDigest : Digest :=
  ⟨#[131, 191, 8, 177, 250, 147, 253, 140, 42, 187, 210, 130, 91, 17, 195, 232, 69, 211, 62,
    117, 45, 150, 56, 11, 160, 239, 208, 168, 245, 132, 43, 239], rfl⟩

def idEvent : AuditEvent where
  eventType := .ofStr (ascii "execve")
  command := .ofStr (ascii "id")
  user := .ofStr (ascii "root")
  pid := 7
  cwd := .ofStr (ascii "/")
  timestamp := .ofStr []
  returnCode := 0
  hash := .ofStr (hexDigest idDigest)

def idLine (command : String) : Bytes :=
  ascii "\x7b\"event_type\":\"execve\",\"command\":\"" ++ ascii command ++
  ascii "\",\"user\":\"root\",\"pid\":7,\"cwd\":\"/\",\"timestamp\":\"\",\"return_code\":0," ++
  ascii "\"hash\":\"" ++ hexDigest idDigest ++ ascii "\"\x7d"

theorem idLine_accepts {command : String} (spelled : command = "id" ∨ command = "\\i\\d") :
    Accepts (fun _ => none) (idLine command) idEvent := by
  rcases spelled with rfl | rfl
  all_goals exact {
    eventType := ⟨_, rfl, congrArg CharArray.ofStr (by decide +kernel)⟩
    command := ⟨_, rfl, congrArg CharArray.ofStr (by decide +kernel)⟩
    user := ⟨_, rfl, congrArg CharArray.ofStr (by decide +kernel)⟩
    pid := ⟨_, rfl, by decide +kernel⟩
    cwd := ⟨_, rfl, congrArg CharArray.ofStr (by decide +kernel)⟩
    timestamp := ⟨_, rfl, congrArg CharArray.ofStr (by decide +kernel)⟩
    returnCode := ⟨_, rfl, by decide +kernel⟩
    hash := ⟨_, rfl, congrArg CharArray.ofStr (by decide +kernel)⟩ }

theorem idEvent_sealed : idEvent.hash.str = hexDigest idDigest :=
  CharArray.ofStr_str (hexDigest_nulFree _) (by rw [hexDigest_length]; decide)

theorem idLine_nulFree {command : String} (spelled : command = "id" ∨ command = "\\i\\d") :
    (0 : UInt8) ∉ idLine command := by
  rcases spelled with rfl | rfl <;> decide +kernel

theorem idLine_decodes {command : String} (spelled : command = "id" ∨ command = "\\i\\d") :
    auditEventFromJson (fun _ => none) (idLine command) = some (0, idEvent) :=
  (auditEventFromJson_accepts (idLine_nulFree spelled)).mpr (idLine_accepts spelled)

theorem idLine_verified {command : String} (spelled : command = "id" ∨ command = "\\i\\d") :
    checkLine (fun _ => idDigest) (fun _ => none) .zero (idLine command) = some .verified :=
  (checkLine_eq (idLine_nulFree spelled) .zero (idLine_decodes spelled)).trans
    (if_pos ⟨idEvent_sealed, CharArray.zero_ended (by decide)⟩)

theorem idLines_bound : idLine "id" ≠ idLine "\\i\\d" ∧
    checkLine (fun _ => idDigest) (fun _ => none) .zero (idLine "id") = some .verified ∧
    checkLine (fun _ => idDigest) (fun _ => none) .zero (idLine "\\i\\d") = some .verified ∧
    SameContent idEvent idEvent :=
  ⟨by decide +kernel, idLine_verified (Or.inl rfl), idLine_verified (Or.inr rfl),
    integrityCheck_binds (idLine_nulFree (Or.inl rfl)) (idLine_nulFree (Or.inr rfl))
      (idLine_decodes (Or.inl rfl)) (idLine_decodes (Or.inr rfl)) (idLine_verified (Or.inl rfl))
      (idLine_verified (Or.inr rfl)) rfl (by simp)⟩

end BlockchainAuditor
