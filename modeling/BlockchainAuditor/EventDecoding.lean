import BlockchainAuditor.AuditEvent

/-! What `audit_event_from_json` reads: each field follows the first occurrence of its
key, strings end at the next quote, and only the command is unescaped. -/

namespace BlockchainAuditor

open CStrings KeyedText

/-- A string field as it is read: up to the quote, and no longer than its array allows. -/
def quotedField (limit : Nat) (text : Bytes) : Bytes :=
  (text.takeWhile (· ≠ quote)).take limit

/-- The command as it is read, up to the first quote that no backslash precedes. -/
def unescape : Bytes → Bytes
  | [] => []
  | c :: rest =>
    if c = quote then []
    else if c = backslash then
      match rest with
      | [] => [c]
      | next :: after => next :: unescape after
    else c :: unescape rest

theorem copyQuoted_eq {size limit : Nat} (inside : limit < size) {text : Bytes}
    (nulFree : (0 : UInt8) ∉ text) :
    ∀ written : Bytes, written.length ≤ limit →
      copyQuoted limit (text ++ [0]) written.length (.ofStr written : CharArray size) =
        some (.ofStr (written ++ quotedField (limit - written.length) text)) := by
  induction text with
  | nil =>
      intro written bound
      simp [copyQuoted, quotedField, CharArray.write_ofStr_nul (by omega : written.length < size)]
  | cons c rest ih =>
      intro written bound
      simp only [List.mem_cons, not_or] at nulFree
      have visible : c ≠ 0 := Ne.symm nulFree.1
      rw [List.cons_append, copyQuoted]
      by_cases stops : c = quote
      · simp [stops, quotedField,
          CharArray.write_ofStr_nul (by omega : written.length < size)]
      · by_cases room : written.length < limit
        · rw [if_pos ⟨visible, stops, room⟩, CharArray.write_ofStr (by omega)]
          have next := ih nulFree.2 (written ++ [c]) (by simp; omega)
          obtain ⟨left, split⟩ : ∃ left, limit - written.length = left + 1 :=
            ⟨limit - written.length - 1, by omega⟩
          have after : limit - (written ++ [c]).length = left := by simp; omega
          rw [after] at next
          simpa [quotedField, split, stops] using next
        · have full : limit - written.length = 0 := by omega
          rw [if_neg (fun all => room all.2.2), full,
            CharArray.write_ofStr_nul (by omega : written.length < size)]
          simp [quotedField]

@[simp] theorem unescape_quote (rest : Bytes) : unescape (quote :: rest) = [] := by
  unfold unescape
  simp

@[simp] theorem unescape_escape (next : UInt8) (after : Bytes) :
    unescape (backslash :: next :: after) = next :: unescape after := by
  rw [unescape.eq_def]
  simp [show backslash ≠ quote by decide]

@[simp] theorem unescape_lone : unescape [backslash] = [backslash] := by decide

theorem unescape_plain {c : UInt8} (notQuote : c ≠ quote) (notBackslash : c ≠ backslash)
    (rest : Bytes) : unescape (c :: rest) = c :: unescape rest := by
  rw [unescape.eq_def]
  simp [notQuote, notBackslash]

section Copying

variable {size limit : Nat} {written : Bytes}

theorem copyCommand_stop (inside : limit < size) {text : Bytes}
    (bound : written.length ≤ limit) (stops : written.length = limit ∨ text.head? = some quote) :
    copyCommand limit (text ++ [0]) written.length (.ofStr written : CharArray size) =
      some (.ofStr written) := by
  have ended := CharArray.write_ofStr_nul (by omega : written.length < size)
  cases text with
  | nil => simp [copyCommand, ended]
  | cons c rest =>
      rw [List.cons_append]
      unfold copyCommand
      rw [if_neg, ended]
      rintro ⟨_, notQuote, room⟩
      rcases stops with full | atQuote
      · omega
      · simp only [List.head?_cons, Option.some.injEq] at atQuote
        exact notQuote atQuote

theorem copyCommand_plain (inside : limit < size) (room : written.length < limit) {c : UInt8}
    (visible : c ≠ 0) (notQuote : c ≠ quote) (notBackslash : c ≠ backslash) (memory : Bytes) :
    copyCommand limit (c :: memory) written.length (.ofStr written : CharArray size) =
      copyCommand limit memory (written ++ [c]).length (.ofStr (written ++ [c])) := by
  conv => lhs; unfold copyCommand
  simp [visible, notQuote, notBackslash, room,
    CharArray.write_ofStr (by omega : written.length < size)]

theorem copyCommand_escape (inside : limit < size) (room : written.length < limit)
    {next : UInt8} (visible : next ≠ 0) (memory : Bytes) :
    copyCommand limit (backslash :: next :: memory) written.length
        (.ofStr written : CharArray size) =
      copyCommand limit memory (written ++ [next]).length (.ofStr (written ++ [next])) := by
  conv => lhs; unfold copyCommand
  simp [visible, room, show backslash ≠ 0 by decide, show backslash ≠ quote by decide,
    CharArray.write_ofStr (by omega : written.length < size)]

theorem copyCommand_lone (inside : limit < size) (room : written.length < limit) :
    copyCommand limit [backslash, 0] written.length (.ofStr written : CharArray size) =
      copyCommand limit [0] (written ++ [backslash]).length (.ofStr (written ++ [backslash])) := by
  conv => lhs; unfold copyCommand
  simp [room, show backslash ≠ 0 by decide, show backslash ≠ quote by decide,
    CharArray.write_ofStr (by omega : written.length < size)]

theorem copyCommand_eq (inside : limit < size) {text : Bytes} :
    ∀ written : Bytes, written.length ≤ limit → (0 : UInt8) ∉ text →
      copyCommand limit (text ++ [0]) written.length (.ofStr written : CharArray size) =
        some (.ofStr (written ++ (unescape text).take (limit - written.length))) := by
  have oneLess : ∀ (written : Bytes) (c : UInt8), written.length < limit →
      limit - written.length = limit - (written ++ [c]).length + 1 := by
    intro written c room
    simp
    omega
  induction text using unescape.induct with
  | case1 =>
      intro written bound _
      have ended := CharArray.write_ofStr_nul (by omega : written.length < size)
      simp [copyCommand, unescape, ended]
  | case2 rest =>
      intro written bound _
      rw [copyCommand_stop inside bound (Or.inr rfl), unescape_quote]
      simp
  | case3 notQuote =>
      intro written bound _
      by_cases room : written.length < limit
      · rw [List.singleton_append, copyCommand_lone inside room, unescape_lone,
          oneLess _ backslash room]
        simpa [copyCommand] using
          CharArray.write_ofStr_nul (by simp; omega : (written ++ [backslash]).length < size)
      · rw [copyCommand_stop inside bound (Or.inl (by omega))]
        simp [show limit - written.length = 0 by omega]
  | case4 next after notQuote ih =>
      intro written bound nulFree
      simp only [List.mem_cons, not_or] at nulFree
      by_cases room : written.length < limit
      · have rest := ih (written ++ [next]) (by simp; omega) nulFree.2.2
        rw [List.cons_append, List.cons_append,
          copyCommand_escape inside room (Ne.symm nulFree.2.1), rest, unescape_escape,
          oneLess _ next room]
        simp
      · rw [copyCommand_stop inside bound (Or.inl (by omega))]
        simp [show limit - written.length = 0 by omega]
  | case5 c rest notQuote plain ih =>
      intro written bound nulFree
      simp only [List.mem_cons, not_or] at nulFree
      by_cases room : written.length < limit
      · have next := ih (written ++ [c]) (by simp; omega) nulFree.2
        rw [List.cons_append, copyCommand_plain inside room (Ne.symm nulFree.1) notQuote plain,
          next, unescape_plain notQuote plain, oneLess _ c room]
        simp
      · rw [copyCommand_stop inside bound (Or.inl (by omega))]
        simp [show limit - written.length = 0 by omega]

end Copying

theorem strstr_nul {key json : Bytes} (nonempty : key ≠ []) (nulFree : (0 : UInt8) ∉ key) :
    strstr key (json ++ [0]) = (strstr key json).map (· ++ [0]) := by
  induction json with
  | nil =>
      have misses : ¬key <+: [0] := by
        intro starts
        obtain ⟨first, rest, rfl⟩ := List.exists_cons_of_ne_nil nonempty
        exact nulFree (by simp [(List.cons_prefix_cons.mp starts).1])
      rw [List.nil_append, strstr_skip misses]
      simp [strstr, nonempty]
  | cons c rest ih =>
      have here : key <+: c :: (rest ++ [0]) ↔ key <+: c :: rest := by
        rw [← List.cons_append, List.prefix_concat_iff]
        constructor
        · rintro (whole | starts)
          · exact absurd (by simp [whole]) nulFree
          · exact starts
        · exact Or.inr
      rw [List.cons_append]
      by_cases starts : key <+: c :: rest
      · rw [strstr_here starts, strstr_here (here.mpr starts)]
        simp
      · rw [strstr_skip starts, strstr_skip (fun found => starts (here.mp found)), ih]

theorem textAfter_nul {key json : Bytes} (nonempty : key ≠ []) (nulFree : (0 : UInt8) ∉ key) :
    (strstr key (json ++ [0])).map (List.drop key.length) =
      (textAfter key json).map (· ++ [0]) := by
  rw [strstr_nul nonempty nulFree, textAfter]
  cases found : strstr key json with
  | none => rfl
  | some rest =>
      have longer := (strstr_isPrefix found).1.length_le
      simp [List.drop_append_of_le_length longer]

theorem textAfter_nulFree {key json rest : Bytes} (nulFree : (0 : UInt8) ∉ json)
    (found : textAfter key json = some rest) : (0 : UInt8) ∉ rest := by
  obtain ⟨hit, searched, rfl⟩ := Option.map_eq_some_iff.mp found
  intro member
  exact nulFree ((strstr_isPrefix searched).2.subset (List.mem_of_mem_drop member))

structure Accepts (overflow : Overflow) (json : Bytes) (ev : AuditEvent) : Prop where
  eventType : ∃ rest, textAfter (stringKey (ascii "event_type")) json = some rest ∧
    ev.eventType = .ofStr (quotedField (eventTypeMax - 1) rest)
  command : ∃ rest, textAfter (stringKey (ascii "command")) json = some rest ∧
    ev.command = .ofStr ((unescape rest).take (commandMax - 1))
  user : ∃ rest, textAfter (stringKey (ascii "user")) json = some rest ∧
    ev.user = .ofStr (quotedField (userMax - 1) rest)
  pid : ∃ rest, textAfter (numberKey (ascii "pid")) json = some rest ∧
    readDigits overflow (rest ++ [0]) 0 = some ev.pid
  cwd : ∃ rest, textAfter (stringKey (ascii "cwd")) json = some rest ∧
    ev.cwd = .ofStr (quotedField (cwdMax - 1) rest)
  timestamp : ∃ rest, textAfter (stringKey (ascii "timestamp")) json = some rest ∧
    ev.timestamp = .ofStr (quotedField (timestampMax - 1) rest)
  returnCode : ∃ rest, textAfter (numberKey (ascii "return_code")) json = some rest ∧
    readReturnCode overflow (rest ++ [0]) = some ev.returnCode
  hash : ∃ rest, textAfter (stringKey (ascii "hash")) json = some rest ∧
    ev.hash = .ofStr (quotedField (hashHexSize - 1) rest)

theorem findKey_eq (json : Bytes) (key : String) (pattern : Bytes) (length : Nat)
    (spelled : ascii key = pattern ∧ pattern.length = length ∧ pattern ≠ [] ∧
      (0 : UInt8) ∉ pattern) :
    findKey (json ++ [0]) key length = (textAfter pattern json).map (· ++ [0]) := by
  obtain ⟨rfl, rfl, nonempty, nulFree⟩ := spelled
  exact textAfter_nul nonempty nulFree

theorem auditEventFromJson_accepts {overflow : Overflow} {json : Bytes} {ev : AuditEvent}
    (nulFree : (0 : UInt8) ∉ json) :
    auditEventFromJson overflow json = some (0, ev) ↔ Accepts overflow json ev := by
  have copied : ∀ (size limit : Nat) {key rest : Bytes}, limit < size →
      textAfter key json = some rest →
      copyQuoted limit (rest ++ [0]) 0 (.zero : CharArray size) =
        some (.ofStr (quotedField limit rest)) := by
    intro size limit key rest inside found
    simpa [CharArray.zero] using
      copyQuoted_eq inside (textAfter_nulFree nulFree found) [] (Nat.zero_le _)
  have lookups := findKey_eq json
  simp only [auditEventFromJson,
    lookups "\"event_type\":\"" (stringKey (ascii "event_type")) 14 (by decide),
    lookups "\"command\":\"" (stringKey (ascii "command")) 11 (by decide),
    lookups "\"user\":\"" (stringKey (ascii "user")) 8 (by decide),
    lookups "\"pid\":" (numberKey (ascii "pid")) 6 (by decide),
    lookups "\"cwd\":\"" (stringKey (ascii "cwd")) 7 (by decide),
    lookups "\"timestamp\":\"" (stringKey (ascii "timestamp")) 13 (by decide),
    lookups "\"return_code\":" (numberKey (ascii "return_code")) 14 (by decide),
    lookups "\"hash\":\"" (stringKey (ascii "hash")) 8 (by decide)]
  rcases eventType : textAfter (stringKey (ascii "event_type")) json with _ | eventTypeRest
  · exact ⟨fun rejected => by simp at rejected,
      fun accepts => by simpa [eventType] using accepts.eventType⟩
  rcases command : textAfter (stringKey (ascii "command")) json with _ | commandRest
  · exact ⟨fun rejected => by simp [Option.bind_eq_some_iff] at rejected,
      fun accepts => by simpa [command] using accepts.command⟩
  rcases user : textAfter (stringKey (ascii "user")) json with _ | userRest
  · exact ⟨fun rejected => by simp [Option.bind_eq_some_iff] at rejected,
      fun accepts => by simpa [user] using accepts.user⟩
  rcases pid : textAfter (numberKey (ascii "pid")) json with _ | pidRest
  · exact ⟨fun rejected => by simp [Option.bind_eq_some_iff] at rejected,
      fun accepts => by simpa [pid] using accepts.pid⟩
  rcases cwd : textAfter (stringKey (ascii "cwd")) json with _ | cwdRest
  · exact ⟨fun rejected => by simp [Option.bind_eq_some_iff] at rejected,
      fun accepts => by simpa [cwd] using accepts.cwd⟩
  rcases timestamp : textAfter (stringKey (ascii "timestamp")) json with _ | timestampRest
  · exact ⟨fun rejected => by simp [Option.bind_eq_some_iff] at rejected,
      fun accepts => by simpa [timestamp] using accepts.timestamp⟩
  rcases returnCode : textAfter (numberKey (ascii "return_code")) json with _ | returnCodeRest
  · exact ⟨fun rejected => by simp [Option.bind_eq_some_iff] at rejected,
      fun accepts => by simpa [returnCode] using accepts.returnCode⟩
  rcases hash : textAfter (stringKey (ascii "hash")) json with _ | hashRest
  · exact ⟨fun rejected => by simp [Option.bind_eq_some_iff] at rejected,
      fun accepts => by simpa [hash] using accepts.hash⟩
  have commandCopied : copyCommand (commandMax - 1) (commandRest ++ [0]) 0
      (.zero : CharArray commandMax) =
        some (.ofStr ((unescape commandRest).take (commandMax - 1))) := by
    have inside : commandMax - 1 < commandMax := by decide
    simpa [CharArray.zero] using
      copyCommand_eq inside [] (Nat.zero_le _) (textAfter_nulFree nulFree command)
  simp only [Option.map_some, AuditEvent.zero, commandCopied,
    copied eventTypeMax (eventTypeMax - 1) (by decide) eventType,
    copied userMax (userMax - 1) (by decide) user, copied cwdMax (cwdMax - 1) (by decide) cwd,
    copied timestampMax (timestampMax - 1) (by decide) timestamp,
    copied hashHexSize (hashHexSize - 1) (by decide) hash, Option.bind_eq_bind, Option.bind_some,
    Option.pure_def, Option.bind_eq_some_iff, Option.some.injEq, Prod.mk.injEq, true_and]
  constructor
  · rintro ⟨pidRead, pidEq, returnCodeRead, returnCodeEq, rfl⟩
    exact ⟨⟨_, eventType, rfl⟩, ⟨_, command, rfl⟩, ⟨_, user, rfl⟩, ⟨_, pid, pidEq⟩, ⟨_, cwd, rfl⟩,
      ⟨_, timestamp, rfl⟩, ⟨_, returnCode, returnCodeEq⟩, ⟨_, hash, rfl⟩⟩
  · intro accepts
    obtain ⟨_, eventTypeFound, eventTypeEq⟩ := accepts.eventType
    obtain ⟨_, commandFound, commandEq⟩ := accepts.command
    obtain ⟨_, userFound, userEq⟩ := accepts.user
    obtain ⟨_, pidFound, pidEq⟩ := accepts.pid
    obtain ⟨_, cwdFound, cwdEq⟩ := accepts.cwd
    obtain ⟨_, timestampFound, timestampEq⟩ := accepts.timestamp
    obtain ⟨_, returnCodeFound, returnCodeEq⟩ := accepts.returnCode
    obtain ⟨_, hashFound, hashEq⟩ := accepts.hash
    obtain rfl := Option.some.inj (eventType.symm.trans eventTypeFound)
    obtain rfl := Option.some.inj (command.symm.trans commandFound)
    obtain rfl := Option.some.inj (user.symm.trans userFound)
    obtain rfl := Option.some.inj (pid.symm.trans pidFound)
    obtain rfl := Option.some.inj (cwd.symm.trans cwdFound)
    obtain rfl := Option.some.inj (timestamp.symm.trans timestampFound)
    obtain rfl := Option.some.inj (returnCode.symm.trans returnCodeFound)
    obtain rfl := Option.some.inj (hash.symm.trans hashFound)
    refine ⟨ev.pid, pidEq, ev.returnCode, returnCodeEq, ?_⟩
    rw [← eventTypeEq, ← commandEq, ← userEq, ← cwdEq, ← timestampEq, ← hashEq]

/-- The numbers that are come to, behind the members that are read before them, can be read. -/
structure NumbersRead (overflow : Overflow) (json : Bytes) : Prop where
  pid : (∀ key ∈ ["event_type", "command", "user"], (textAfter (stringKey (ascii key)) json).isSome) →
    ∀ rest, textAfter (numberKey (ascii "pid")) json = some rest →
      (readDigits overflow (rest ++ [0]) 0).isSome
  returnCode : (∀ key ∈ ["event_type", "command", "user", "cwd", "timestamp"],
      (textAfter (stringKey (ascii key)) json).isSome) →
    (textAfter (numberKey (ascii "pid")) json).isSome →
    ∀ rest, textAfter (numberKey (ascii "return_code")) json = some rest →
      (readReturnCode overflow (rest ++ [0])).isSome

theorem auditEventFromJson_isSome_iff {overflow : Overflow} {json : Bytes}
    (nulFree : (0 : UInt8) ∉ json) :
    (auditEventFromJson overflow json).isSome ↔ NumbersRead overflow json := by
  have copied : ∀ (size limit : Nat) {key rest : Bytes}, limit < size →
      textAfter key json = some rest →
      copyQuoted limit (rest ++ [0]) 0 (.zero : CharArray size) =
        some (.ofStr (quotedField limit rest)) := by
    intro size limit key rest inside found
    simpa [CharArray.zero] using
      copyQuoted_eq inside (textAfter_nulFree nulFree found) [] (Nat.zero_le _)
  have lookups := findKey_eq json
  have split : NumbersRead overflow json ↔ _ ∧ _ :=
    ⟨fun numbers => ⟨numbers.pid, numbers.returnCode⟩, fun both => ⟨both.1, both.2⟩⟩
  simp only [split, List.forall_mem_cons, List.not_mem_nil, false_implies, implies_true, and_true]
  simp only [auditEventFromJson,
    lookups "\"event_type\":\"" (stringKey (ascii "event_type")) 14 (by decide),
    lookups "\"command\":\"" (stringKey (ascii "command")) 11 (by decide),
    lookups "\"user\":\"" (stringKey (ascii "user")) 8 (by decide),
    lookups "\"pid\":" (numberKey (ascii "pid")) 6 (by decide),
    lookups "\"cwd\":\"" (stringKey (ascii "cwd")) 7 (by decide),
    lookups "\"timestamp\":\"" (stringKey (ascii "timestamp")) 13 (by decide),
    lookups "\"return_code\":" (numberKey (ascii "return_code")) 14 (by decide),
    lookups "\"hash\":\"" (stringKey (ascii "hash")) 8 (by decide)]
  rcases eventType : textAfter (stringKey (ascii "event_type")) json with _ | eventTypeRest
  · simp
  rcases command : textAfter (stringKey (ascii "command")) json with _ | commandRest
  · simp [AuditEvent.zero, copied eventTypeMax (eventTypeMax - 1) (by decide) eventType]
  have commandCopied : copyCommand (commandMax - 1) (commandRest ++ [0]) 0
      (.zero : CharArray commandMax) =
        some (.ofStr ((unescape commandRest).take (commandMax - 1))) := by
    have inside : commandMax - 1 < commandMax := by decide
    simpa [CharArray.zero] using
      copyCommand_eq inside [] (Nat.zero_le _) (textAfter_nulFree nulFree command)
  have eventTypeCopied := copied eventTypeMax (eventTypeMax - 1) (by decide) eventType
  simp only [Option.map_some, AuditEvent.zero, eventTypeCopied, commandCopied, Option.bind_eq_bind,
    Option.bind_some, Option.isSome_some, true_and]
  rcases user : textAfter (stringKey (ascii "user")) json with _ | userRest
  · simp
  have userCopied := copied userMax (userMax - 1) (by decide) user
  rcases pid : textAfter (numberKey (ascii "pid")) json with _ | pidRest
  · simp [userCopied]
  cases pidRead : readDigits overflow (pidRest ++ [0]) 0 with
  | none => simp [userCopied, pidRead]
  | some value =>
      simp only [Option.map_some, userCopied, pidRead, Option.bind_some, Option.isSome_some,
        Option.some.injEq, forall_eq', true_and, forall_const]
      rcases cwd : textAfter (stringKey (ascii "cwd")) json with _ | cwdRest
      · simp
      have cwdCopied := copied cwdMax (cwdMax - 1) (by decide) cwd
      rcases timestamp : textAfter (stringKey (ascii "timestamp")) json with _ | timestampRest
      · simp [cwdCopied]
      have timestampCopied := copied timestampMax (timestampMax - 1) (by decide) timestamp
      rcases returnCode : textAfter (numberKey (ascii "return_code")) json with _ | returnCodeRest
      · simp [cwdCopied, timestampCopied]
      cases returnCodeRead : readReturnCode overflow (returnCodeRest ++ [0]) with
      | none => simp [cwdCopied, timestampCopied, returnCodeRead]
      | some code =>
          rcases hash : textAfter (stringKey (ascii "hash")) json with _ | hashRest
          · simp [cwdCopied, timestampCopied, returnCodeRead]
          · simp [cwdCopied, timestampCopied, returnCodeRead,
              copied hashHexSize (hashHexSize - 1) (by decide) hash]
end BlockchainAuditor
