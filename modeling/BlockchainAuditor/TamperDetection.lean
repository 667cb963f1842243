import BlockchainAuditor.CommandEdit
import BlockchainAuditor.IntegrityTest

/-! Which of the changes that `local_log_simulate_tamper` makes the loop of
`cmd_integrity_test` reports. -/

namespace BlockchainAuditor

open CStrings CharArray KeyedText LineReader

/-- The line as it is written back, which holds no more than the buffer. -/
def rewritten (front newValue behind : Bytes) : Bytes :=
  (front ++ (newValue ++ quote :: behind)).take (lineBufferSize - 1)

/-- A value that can make no key, in a line that is not cut. -/
structure Bare (front newValue behind : Bytes) : Prop where
  quoteFree : quote ∉ newValue
  apart : behind.head? ≠ some colon
  whole : (front ++ (newValue ++ quote :: behind)).length < lineBufferSize

def commandRead (text : Bytes) : Bytes := (unescape text).take (commandMax - 1)

/-- Both lines have the member, and what is read of it is the same. -/
def Alike {α : Type} (read : Bytes → α) (key line other : Bytes) : Prop :=
  ∃ rest otherRest, textAfter key line = some rest ∧ textAfter key other = some otherRest ∧
    read rest = read otherRest

def AlikeHash (line other : Bytes) : Prop :=
  Alike (quotedField (hashHexSize - 1)) (stringKey (ascii "hash")) line other

structure SameMembers (overflow : Overflow) (line other : Bytes) : Prop where
  eventType : Alike (quotedField (eventTypeMax - 1)) (stringKey (ascii "event_type")) line other
  command : Alike commandRead (stringKey (ascii "command")) line other
  user : Alike (quotedField (userMax - 1)) (stringKey (ascii "user")) line other
  pid : Alike (fun rest => readDigits overflow (rest ++ [0]) 0) (numberKey (ascii "pid")) line other
  cwd : Alike (quotedField (cwdMax - 1)) (stringKey (ascii "cwd")) line other
  timestamp : Alike (quotedField (timestampMax - 1)) (stringKey (ascii "timestamp")) line other
  returnCode : Alike (fun rest => readReturnCode overflow (rest ++ [0]))
    (numberKey (ascii "return_code")) line other
  hash : AlikeHash line other

/-- How a value can go unnoticed. A bare one only spells the same command. One with quotes may also
write members that were there already, or an event of its own with the digest of that event. -/
inductive Overlooked (sha256 : Bytes → Digest) (overflow : Overflow)
    (front text behind newValue : Bytes) : Prop
  | respelled (bare : Bare front newValue behind)
      (same : commandRead (newValue ++ quote :: behind) = commandRead (text ++ quote :: behind))
  | rearranged (quoted : ¬Bare front newValue behind)
      (same : SameMembers overflow (front ++ (text ++ quote :: behind))
        (rewritten front newValue behind))
  | resealed (quoted : ¬Bare front newValue behind) (forged : AuditEvent)
      (planted : ¬AlikeHash (front ++ (text ++ quote :: behind)) (rewritten front newValue behind))
      (spelled : Accepts overflow (rewritten front newValue behind) forged)
      (own : forged.hash.str = hexDigest (sha256 (hashText forged)))

variable {sha256 : Bytes → Digest} {overflow : Overflow} {storedHash : Nat → CharArray hashHexSize}
  {check : GatewayCheck} {writable : Bool} {newLine : CharArray lineBufferSize} {log : Option Bytes}
  {index : Nat} {original tampered front text behind newValue line other : Bytes} {lines : List Bytes}
  {ev read : AuditEvent}

theorem Alike.found {α : Type} {reader : Bytes → α} {key rest : Bytes}
    (alike : Alike reader key line other) (found : textAfter key line = some rest) :
    ∃ otherRest, textAfter key other = some otherRest ∧ reader rest = reader otherRest := by
  obtain ⟨place, otherRest, here, there, same⟩ := alike
  obtain rfl := Option.some.inj (here.symm.trans found)
  exact ⟨otherRest, there, same⟩

theorem SameMembers.accepts (same : SameMembers overflow line other)
    (accepts : Accepts overflow line ev) : Accepts overflow other ev := by
  have string : ∀ {reader : Bytes → Bytes} {key : Bytes} {size : Nat} {field : CharArray size},
      Alike reader key line other →
      (∃ rest, textAfter key line = some rest ∧ field = .ofStr (reader rest)) →
      ∃ rest, textAfter key other = some rest ∧ field = .ofStr (reader rest) := by
    rintro reader key size field alike ⟨rest, found, value⟩
    obtain ⟨otherRest, there, same⟩ := alike.found found
    exact ⟨otherRest, there, by rw [value, same]⟩
  have number : ∀ {reader : Bytes → Option Int32} {key : Bytes} {value : Int32},
      Alike reader key line other →
      (∃ rest, textAfter key line = some rest ∧ reader rest = some value) →
      ∃ rest, textAfter key other = some rest ∧ reader rest = some value := by
    rintro reader key value alike ⟨rest, found, reads⟩
    obtain ⟨otherRest, there, same⟩ := alike.found found
    exact ⟨otherRest, there, by rw [← same, reads]⟩
  exact {
    eventType := string same.eventType accepts.eventType
    command := string same.command accepts.command
    user := string same.user accepts.user
    pid := number same.pid accepts.pid
    cwd := string same.cwd accepts.cwd
    timestamp := string same.timestamp accepts.timestamp
    returnCode := number same.returnCode accepts.returnCode
    hash := string same.hash accepts.hash }

theorem mem_unescape {byte : UInt8} {text : Bytes} (member : byte ∈ unescape text) : byte ∈ text := by
  induction text using unescape.induct with
  | case1 => simp [unescape] at member
  | case2 rest => simp at member
  | case3 _ => simpa using member
  | case4 next after _ ih =>
      rw [unescape_escape] at member
      rcases List.mem_cons.mp member with rfl | later
      · simp
      · simp [ih later]
  | case5 c rest notQuote plain ih =>
      rw [unescape_plain notQuote plain] at member
      rcases List.mem_cons.mp member with rfl | later
      · simp
      · simp [ih later]

structure ReadsInto (size : Nat) (reader : Bytes → Bytes) : Prop where
  fits : ∀ rest, (reader rest).length ≤ size
  inside : ∀ rest, ∀ byte ∈ reader rest, byte ∈ rest

theorem quotedField_readsInto {size : Nat} (limit : Nat) (inside : limit ≤ size) :
    ReadsInto size (quotedField limit) where
  fits _ := Nat.le_trans (quotedField_length limit _) inside
  inside _ _ member := List.takeWhile_subset _ (List.mem_of_mem_take member)

theorem commandRead_readsInto : ReadsInto commandMax commandRead where
  fits _ := by
    simp only [commandRead, List.length_take]
    omega
  inside _ _ member := mem_unescape (List.mem_of_mem_take member)

theorem alike_of_str {size : Nat} {reader : Bytes → Bytes} (reads : ReadsInto size reader)
    (nulFree : (0 : UInt8) ∉ line) (otherFree : (0 : UInt8) ∉ other) {key : Bytes}
    {field otherField : CharArray size}
    (found : ∃ rest, textAfter key line = some rest ∧ field = .ofStr (reader rest))
    (otherFound : ∃ rest, textAfter key other = some rest ∧ otherField = .ofStr (reader rest))
    (same : field.str = otherField.str) : Alike reader key line other := by
  obtain ⟨rest, here, rfl⟩ := found
  obtain ⟨otherRest, there, rfl⟩ := otherFound
  have plain : ∀ {text rest : Bytes}, (0 : UInt8) ∉ text → textAfter key text = some rest →
      (ofStr (reader rest) : CharArray size).str = reader rest := by
    intro text rest free place
    exact ofStr_str (fun member => textAfter_nulFree free place (reads.inside rest 0 member))
      (reads.fits rest)
  rw [plain nulFree here, plain otherFree there] at same
  exact ⟨rest, otherRest, here, there, same⟩

theorem SameContent.members (same : SameContent ev read) (accepts : Accepts overflow line ev)
    (otherAccepts : Accepts overflow other read) (nulFree : (0 : UInt8) ∉ line)
    (otherFree : (0 : UInt8) ∉ other) (hash : AlikeHash line other) :
    SameMembers overflow line other := by
  have number : ∀ {reader : Bytes → Option Int32} {key : Bytes} {value otherValue : Int32},
      (∃ rest, textAfter key line = some rest ∧ reader rest = some value) →
      (∃ rest, textAfter key other = some rest ∧ reader rest = some otherValue) →
      value = otherValue → Alike reader key line other := by
    rintro reader key value otherValue ⟨rest, here, reads⟩ ⟨otherRest, there, otherReads⟩ rfl
    exact ⟨rest, otherRest, here, there, by rw [reads, otherReads]⟩
  exact {
    eventType := alike_of_str (quotedField_readsInto _ (by decide)) nulFree otherFree
      accepts.eventType otherAccepts.eventType same.eventType
    command := alike_of_str commandRead_readsInto nulFree otherFree accepts.command
      otherAccepts.command same.command
    user := alike_of_str (quotedField_readsInto _ (by decide)) nulFree otherFree accepts.user
      otherAccepts.user same.user
    pid := number accepts.pid otherAccepts.pid same.pid
    cwd := alike_of_str (quotedField_readsInto _ (by decide)) nulFree otherFree accepts.cwd
      otherAccepts.cwd same.cwd
    timestamp := alike_of_str (quotedField_readsInto _ (by decide)) nulFree otherFree
      accepts.timestamp otherAccepts.timestamp same.timestamp
    returnCode := number accepts.returnCode otherAccepts.returnCode same.returnCode
    hash := hash }

theorem Bare.rewritten_eq (bare : Bare front newValue behind) :
    rewritten front newValue behind = front ++ (newValue ++ quote :: behind) :=
  List.take_of_length_le (by have := bare.whole; omega)

theorem Overlooked.genuine (overlooked : Overlooked sha256 overflow front text behind newValue)
    (inLine : CommandIn line front text behind) (genuine : Genuine sha256 overflow line)
    (nulFree : (0 : UInt8) ∉ line) (tamperedFree : (0 : UInt8) ∉ rewritten front newValue behind) :
    Genuine sha256 overflow (rewritten front newValue behind) := by
  obtain ⟨ev, decodes, own⟩ := genuine
  have accepts := (auditEventFromJson_accepts nulFree).mp decodes
  cases overlooked with
  | respelled bare same =>
      have edited := inLine.accepts_edited bare.quoteFree bare.apart accepts
      obtain ⟨rest, here, value⟩ := accepts.command
      obtain rfl := Option.some.inj (inLine.place.symm.trans here)
      have unchanged : (.ofStr (commandRead (newValue ++ quote :: behind)) : CharArray commandMax) =
          ev.command := by rw [same, value, commandRead]
      rw [← bare.rewritten_eq] at edited
      refine ⟨ev, (auditEventFromJson_accepts tamperedFree).mpr ?_, own⟩
      rw [commandRead] at unchanged
      rwa [unchanged] at edited
  | rearranged quoted same =>
      rw [← inLine.split] at same
      exact ⟨ev, (auditEventFromJson_accepts tamperedFree).mpr (same.accepts accepts), own⟩
  | resealed quoted forged planted spelled own =>
      exact ⟨forged, (auditEventFromJson_accepts tamperedFree).mpr spelled, own⟩

theorem AlikeHash.str (alike : AlikeHash line other) (accepts : Accepts overflow line ev)
    (otherAccepts : Accepts overflow other read) : read.hash.str = ev.hash.str := by
  obtain ⟨rest, here, value⟩ := accepts.hash
  obtain ⟨otherRest, there, same⟩ := alike.found here
  obtain ⟨alsoRest, alsoThere, alsoValue⟩ := otherAccepts.hash
  obtain rfl := Option.some.inj (there.symm.trans alsoThere)
  rw [value, alsoValue, same]

theorem Genuine.overlooked (tamperedGenuine : Genuine sha256 overflow (rewritten front newValue behind))
    (inLine : CommandIn line front text behind) (genuine : Genuine sha256 overflow line)
    (nulFree : (0 : UInt8) ∉ line) (tamperedFree : (0 : UInt8) ∉ rewritten front newValue behind)
    (collisionFree : ∀ ev read, auditEventFromJson overflow line = some (0, ev) →
      auditEventFromJson overflow (rewritten front newValue behind) = some (0, read) →
      Set.InjOn sha256 {hashText ev, hashText read}) :
    Overlooked sha256 overflow front text behind newValue := by
  obtain ⟨ev, decodes, own⟩ := genuine
  obtain ⟨read, readDecodes, readOwn⟩ := tamperedGenuine
  have accepts := (auditEventFromJson_accepts nulFree).mp decodes
  have spelled := (auditEventFromJson_accepts tamperedFree).mp readDecodes
  have content : read.hash.str = ev.hash.str → SameContent ev read := by
    intro sameHash
    have digests : sha256 (hashText ev) = sha256 (hashText read) := by
      apply hexDigest_injective
      rw [← own, ← readOwn, sameHash]
    apply hashText_injective (accepts_unquoted accepts) (accepts_unquoted spelled)
    exact collisionFree ev read decodes readDecodes (by simp) (by simp) digests
  by_cases bare : Bare front newValue behind
  · have edited := inLine.accepts_edited bare.quoteFree bare.apart accepts
    rw [← bare.rewritten_eq] at edited
    have editedDecodes := (auditEventFromJson_accepts tamperedFree).mpr edited
    obtain ⟨-, rfl⟩ := Prod.mk.inj (Option.some.inj (readDecodes.symm.trans editedDecodes))
    obtain ⟨rest, otherRest, here, there, same⟩ := alike_of_str commandRead_readsInto nulFree
      tamperedFree accepts.command spelled.command (content rfl).command
    rw [bare.rewritten_eq, inLine.edited] at there
    obtain rfl := Option.some.inj there
    obtain rfl := Option.some.inj (inLine.place.symm.trans here)
    exact .respelled bare same.symm
  · by_cases sameHash : AlikeHash line (rewritten front newValue behind)
    · have members := (content (sameHash.str accepts spelled)).members accepts spelled nulFree
        tamperedFree sameHash
      rw [inLine.split] at members
      exact .rearranged bare members
    · rw [inLine.split] at sameHash
      exact .resealed bare read sameHash spelled readOwn

theorem fileText_set (inside : index < lines.length) (line : Bytes) :
    fileText (lines.set index line) = fileText (lines.take index) ++
      (line ++ ([newline] ++ fileText (lines.drop (index + 1)))) := by
  rw [List.set_eq_take_append_cons_drop, if_pos inside]
  simp [fileText]

theorem fileText_set_injective (inside : index < lines.length) {left right : Bytes}
    (same : fileText (lines.set index left) = fileText (lines.set index right)) : left = right := by
  rw [fileText_set inside, fileText_set inside] at same
  exact List.append_cancel_right (List.append_cancel_left same)

theorem genuine_hashKey (nulFree : (0 : UInt8) ∉ original)
    (genuine : Genuine sha256 overflow original) :
    (strstr (ascii "\"hash\"") original).isNone = false := by
  obtain ⟨ev, decodes, _⟩ := genuine
  obtain ⟨rest, found, _⟩ := ((auditEventFromJson_accepts nulFree).mp decodes).hash
  obtain ⟨hit, searched, _⟩ := Option.map_eq_some_iff.mp found
  obtain ⟨starts, suffix⟩ := strstr_isPrefix searched
  have shorter : ascii "\"hash\"" <+: stringKey (ascii "hash") := by decide
  obtain ⟨place, here⟩ := strstr_infix ((shorter.trans starts).isInfix.trans suffix.isInfix)
  rw [here]
  rfl

theorem localLogSimulateTamper_genuine (valueFree : (0 : UInt8) ∉ newValue)
    (here : (localLogReadAll log)[index]? = some original)
    (genuine : Genuine sha256 overflow original) :
    localLogSimulateTamper writable newLine log index newValue =
      some (match withCommand original newValue with
        | none => (-1, log)
        | some full =>
          if writable then
            (0, some (fileText ((localLogReadAll log).set index (full.take (lineBufferSize - 1)))))
          else (-1, log)) := by
  have nulFree := (localLogReadAll_plain log original (List.mem_of_getElem? here)).1.nulFree
  have chosen : tamperedLine (localLogReadAll log) index newValue = withCommand original newValue := by
    rw [tamperedLine, if_neg (by omega), Int.toNat_natCast, here, Option.bind_eq_bind,
      Option.bind_some, genuine_hashKey nulFree genuine, if_neg (by decide)]
  have simulated := @localLogSimulateTamper_eq writable newLine log index newValue valueFree
  rw [chosen, Int.toNat_natCast] at simulated
  exact simulated

theorem checkLine_isSome (nulFree : (0 : UInt8) ∉ tampered) (hashArray : CharArray hashHexSize) :
    (checkLine sha256 overflow hashArray tampered).isSome ↔
      (auditEventFromJson overflow tampered).isSome := by
  cases decoded : auditEventFromJson overflow tampered with
  | none => simp [checkLine, decoded]
  | some result =>
      obtain ⟨rc, ev⟩ := result
      by_cases accepted : rc = 0
      · subst accepted
        rw [checkLine_eq nulFree hashArray decoded]
        split <;> simp
      · simp [checkLine, decoded, accepted]

theorem cmdIntegrityTest_untampered {report : IntegrityReport} {after : Option Bytes} :
    cmdIntegrityTest sha256 overflow check storedHash writable newLine [] log =
        some (1, report, after) ↔
      check.first = some (-1) ∧ integrityTest sha256 overflow storedHash log = some report ∧
        report.rc = 1 ∧ after = log := by
  rw [cmdIntegrityTest, check.run_eq]
  cases came : check.first with
  | none => simp
  | some rc =>
      rw [check.first_fails came, Option.map_some, Option.bind_eq_bind, Option.bind_some,
        and_iff_right rfl]
      change (integrityTest sha256 overflow storedHash log >>= fun report =>
        some (report.rc, report, log)) = _ ↔ _
      rw [Option.bind_eq_bind, Option.bind_eq_some_iff]
      constructor
      · rintro ⟨ran, tested, same⟩
        simp only [Option.some.injEq, Prod.mk.injEq] at same
        obtain ⟨rc, rfl, rfl⟩ := same
        exact ⟨tested, rc, rfl⟩
      · rintro ⟨tested, rc, rfl⟩
        exact ⟨report, tested, by rw [rc]⟩

/-- What has to hold of the local arrays and of the line for the report to name just this line. -/
structure Noticed (sha256 : Bytes → Digest) (overflow : Overflow)
    (storedHash : Nat → CharArray hashHexSize) (lines : List Bytes) (index : Nat)
    (front text behind newValue : Bytes) : Prop where
  newlineFree : newline ∉ rewritten front newValue behind
  readBack : ReadBack lineBufferSize cachedLinesMax
    (lines.set index (rewritten front newValue behind))
  numbers : NumbersRead overflow (rewritten front newValue behind)
  others : ∀ other < lines.length, other ≠ index → (storedHash other).Ended
  seen : (storedHash index).Ended → ¬Overlooked sha256 overflow front text behind newValue

theorem reports_iff (inside : index < lines.length) (read : localLogReadAll log = lines) :
    (∃ report, cmdIntegrityTest sha256 overflow check storedHash writable newLine [] log =
        some (1, report, log) ∧
      ∀ line < lines.length, report.verdicts[line]? = some .verified ↔ line ≠ index) ↔
    check.first = some (-1) ∧
      ∃ verdicts, lineVerdicts sha256 overflow storedHash 0 lines = some verdicts ∧
        ∀ line < lines.length, verdicts[line]? = some .verified ↔ line ≠ index := by
  constructor
  · rintro ⟨report, ran, reported⟩
    obtain ⟨offline, tested, -⟩ := cmdIntegrityTest_untampered.mp ran
    have judged := integrityTest_verdicts.mp ⟨report, tested, rfl⟩
    rw [read] at judged
    exact ⟨offline, report.verdicts, judged, reported⟩
  · rintro ⟨offline, verdicts, judged, reported⟩
    have length := (lineVerdicts_iff.mp judged).1
    rw [← read] at judged
    obtain ⟨report, tested, rfl⟩ := integrityTest_verdicts.mpr judged
    refine ⟨report, cmdIntegrityTest_untampered.mpr ⟨offline, tested, ?_, rfl⟩, reported⟩
    apply (integrityTest_rc tested).mpr
    refine ⟨report.verdicts[index], List.getElem_mem (by omega), ?_⟩
    intro verified
    apply (reported index inside).mp _ rfl
    rw [List.getElem?_eq_getElem (by omega), verified]

theorem onlyReported_iff (genuine : ∀ line ∈ lines, Genuine sha256 overflow line)
    (nulFree : ∀ line ∈ lines.set index tampered, (0 : UInt8) ∉ line) (inside : index < lines.length)
    (read : localLogReadAll log = lines.set index tampered) :
    (∃ report, cmdIntegrityTest sha256 overflow check storedHash writable newLine [] log =
        some (1, report, log) ∧
      ∀ line < lines.length, report.verdicts[line]? = some .verified ↔ line ≠ index) ↔
    check.first = some (-1) ∧ NumbersRead overflow tampered ∧
      (∀ other < lines.length, other ≠ index → (storedHash other).Ended) ∧
      ((storedHash index).Ended → ¬Genuine sha256 overflow tampered) := by
  have tamperedFree := nulFree tampered (List.mem_set inside tampered)
  have atIndex : (lines.set index tampered)[index]? = some tampered := by
    simp [inside]
  have elsewhere : ∀ other, other ≠ index → (lines.set index tampered)[other]? = lines[other]? :=
    fun _ apart => List.getElem?_set_ne (Ne.symm apart)
  have length : (lines.set index tampered).length = lines.length := List.length_set
  rw [← length, reports_iff (by rwa [length]) read, lineVerdicts_verified,
    ← auditEventFromJson_isSome_iff tamperedFree]
  refine and_congr_right fun _ => ?_
  constructor
  · intro each
    obtain ⟨checked, verified⟩ := each index tampered atIndex
    refine ⟨(checkLine_isSome tamperedFree _).mp checked, ?_, ?_⟩
    · intro other bound apart
      rw [length] at bound
      have here := (elsewhere other apart).trans (List.getElem?_eq_getElem bound)
      have untouched := (each other _ here).2.mpr apart
      exact ((checkLine_verified_iff (nulFree _ (List.mem_of_getElem? here)) _).mp untouched).2
    · intro ended own
      exact verified.mp ((checkLine_verified_iff tamperedFree _).mpr ⟨own, ended⟩) rfl
  · rintro ⟨decodes, ended, seen⟩ i line here
    by_cases same : i = index
    · subst same
      obtain rfl : tampered = line := Option.some.inj (atIndex.symm.trans here)
      refine ⟨(checkLine_isSome tamperedFree _).mpr decodes, ?_⟩
      rw [checkLine_verified_iff tamperedFree]
      simp only [ne_eq, not_true, iff_false]
      exact fun both => seen both.2 both.1
    · have before := (elsewhere i same).symm.trans here
      have bound := (List.getElem?_eq_some_iff.mp before).1
      have verified := (checkLine_verified_iff (nulFree line (List.mem_of_getElem? here)) _).mpr
        ⟨genuine line (List.mem_of_getElem? before), ended i (by rwa [length]) same⟩
      exact ⟨by rw [verified]; rfl, by simp [verified, same]⟩

/-- The log keeps its lines, the one at the index apart, and just that one is reported. -/
def Detected (sha256 : Bytes → Digest) (overflow : Overflow) (check : GatewayCheck)
    (storedHash : Nat → CharArray hashHexSize) (writable : Bool) (newLine : CharArray lineBufferSize)
    (log : Option Bytes) (index : Nat) (newValue : Bytes) : Prop :=
  ∃ replaced report,
    let lines := (localLogReadAll log).set index replaced
    localLogSimulateTamper writable newLine log index newValue = some (0, some (fileText lines)) ∧
      localLogReadAll (some (fileText lines)) = lines ∧
      cmdIntegrityTest sha256 overflow check storedHash writable newLine []
        (some (fileText lines)) = some (1, report, some (fileText lines)) ∧
      ∀ line < (localLogReadAll log).length, report.verdicts[line]? = some .verified ↔ line ≠ index

theorem Detected.noticed (detected : Detected sha256 overflow check storedHash writable newLine log
      index newValue) (genuine : ∀ line ∈ localLogReadAll log, Genuine sha256 overflow line)
    (here : (localLogReadAll log)[index]? = some original) (valueFree : (0 : UInt8) ∉ newValue) :
    check.first = some (-1) ∧ writable = true ∧ ∃ front text behind,
      CommandIn original front text behind ∧
        Noticed sha256 overflow storedHash (localLogReadAll log) index front text behind newValue := by
  have member := List.mem_of_getElem? here
  have inside := (List.getElem?_eq_some_iff.mp here).1
  obtain ⟨replaced, report, ran, back, tested, reported⟩ := detected
  rw [localLogSimulateTamper_genuine valueFree here (genuine original member)] at ran
  cases found : withCommand original newValue with
  | none => simp [found] at ran
  | some full =>
      cases writable with
      | false => simp [found] at ran
      | true =>
          simp only [found, if_true, Option.some.injEq, Prod.mk.injEq, true_and] at ran
          obtain rfl := fileText_set_injective inside ran
          obtain ⟨front, text, behind, inLine, rfl⟩ := withCommand_iff.mp found
          have plain : ∀ line ∈ (localLogReadAll log).set index (rewritten front newValue behind),
              Plain line := by
            rw [rewritten, ← back]
            exact fun line inLog => (localLogReadAll_plain _ line inLog).1
          have tamperedPlain := plain _ (List.mem_set inside _)
          obtain ⟨offline, numbers, others, seen⟩ := (onlyReported_iff genuine
            (fun line inLog => (plain line inLog).nulFree) inside back).mp ⟨report, tested, reported⟩
          refine ⟨offline, rfl, front, text, behind, inLine, ?_⟩
          exact {
            newlineFree := tamperedPlain.newlineFree
            readBack := (readLines_fileText_iff (by decide) plain).mp back
            numbers := numbers
            others := others
            seen := fun ended overlooked => seen ended (overlooked.genuine inLine
              (genuine original member) (localLogReadAll_plain _ original member).1.nulFree
              tamperedPlain.nulFree) }

theorem Noticed.detected
    (noticed : Noticed sha256 overflow storedHash (localLogReadAll log) index front text behind newValue)
    (offline : check.first = some (-1))
    (genuine : ∀ line ∈ localLogReadAll log, Genuine sha256 overflow line)
    (here : (localLogReadAll log)[index]? = some original) (valueFree : (0 : UInt8) ∉ newValue)
    (inLine : CommandIn original front text behind)
    (collisionFree : ∀ ev read, auditEventFromJson overflow original = some (0, ev) →
      auditEventFromJson overflow (rewritten front newValue behind) = some (0, read) →
      Set.InjOn sha256 {hashText ev, hashText read}) :
    Detected sha256 overflow check storedHash true newLine log index newValue := by
  have member := List.mem_of_getElem? here
  have inside := (List.getElem?_eq_some_iff.mp here).1
  have inLog := fun line inLog => (localLogReadAll_plain log line inLog).1
  have found : withCommand original newValue = some (front ++ (newValue ++ quote :: behind)) :=
    withCommand_iff.mpr ⟨front, text, behind, inLine, rfl⟩
  have cutFree : (0 : UInt8) ∉ rewritten front newValue behind := fun inside =>
    withCommand_excludes (inLog original member).nulFree valueFree found (List.mem_of_mem_take inside)
  have plain := @forall_set _ _ inLog index _ ⟨noticed.newlineFree, cutFree⟩
  have back : localLogReadAll (some (fileText ((localLogReadAll log).set index
      (rewritten front newValue behind)))) = _ :=
    (readLines_fileText_iff (by decide) plain).mpr noticed.readBack
  obtain ⟨report, tested, reported⟩ := (onlyReported_iff genuine
    (fun line inSet => (plain line inSet).nulFree) inside back).mpr
      ⟨offline, noticed.numbers, noticed.others, fun ended own => noticed.seen ended
        (own.overlooked inLine (genuine original member) (inLog original member).nulFree cutFree
          collisionFree)⟩
  refine ⟨rewritten front newValue behind, report, ?_, back, tested, reported⟩
  rw [localLogSimulateTamper_genuine valueFree here (genuine original member), found]
  rfl

def idSha256 (text : Bytes) : Digest :=
  if text = hashText idEvent then idDigest else Vector.replicate 32 0

theorem idLine_own {command : String} (spelled : command = "id" ∨ command = "\\i\\d") :
    Genuine idSha256 (fun _ => none) (idLine command) := by
  refine ⟨idEvent, idLine_decodes spelled, ?_⟩
  rw [idSha256, if_pos rfl]
  exact idEvent_sealed

def idEventLs : AuditEvent := { idEvent with command := .ofStr (ascii "ls") }

theorem lsLine_decodes : auditEventFromJson (fun _ => none) (idLine "ls") = some (0, idEventLs) := by
  apply (auditEventFromJson_accepts (by decide +kernel)).mpr
  exact {
    eventType := ⟨_, rfl, congrArg CharArray.ofStr (by decide +kernel)⟩
    command := ⟨_, rfl, congrArg CharArray.ofStr (by decide +kernel)⟩
    user := ⟨_, rfl, congrArg CharArray.ofStr (by decide +kernel)⟩
    pid := ⟨_, rfl, by decide +kernel⟩
    cwd := ⟨_, rfl, congrArg CharArray.ofStr (by decide +kernel)⟩
    timestamp := ⟨_, rfl, congrArg CharArray.ofStr (by decide +kernel)⟩
    returnCode := ⟨_, rfl, by decide +kernel⟩
    hash := ⟨_, rfl, congrArg CharArray.ofStr (by decide +kernel)⟩ }

theorem lsText_differs : hashText idEventLs ≠ hashText idEvent := by decide +kernel

theorem lsLine_forged : ¬Genuine idSha256 (fun _ => none) (idLine "ls") := by
  rintro ⟨read, decodes, own⟩
  rw [lsLine_decodes] at decodes
  obtain ⟨_, rfl⟩ := Prod.mk.inj (Option.some.inj decodes)
  rw [idSha256, if_neg lsText_differs] at own
  exact absurd (hexDigest_injective (idEvent_sealed.symm.trans own)) (by decide)

/-- Nobody listens, and the block of 0 bytes has a minimal size. -/
def offlineCheck : GatewayCheck where
  client := ⟨true, .zero⟩
  heap := zeroHeap
  network := fun _ => ⟨[], .transportFailure 7 (by decide)⟩
  block := some ⟨24, .zero, by decide⟩
  response := .zero

theorem offlineCheck_unanswered : offlineCheck.Unanswered := by
  refine Or.inr ⟨by decide, fun delivered => ?_⟩
  exact absurd delivered.completed (by decide)

theorem offlineCheck_documented : (requested offlineCheck.client offlineCheck.network
    verifyEndpoint).Documented :=
  fun inside => absurd inside List.not_mem_nil

theorem offlineCheck_fails : offlineCheck.first = some (-1) :=
  (GatewayCheck.first_iff offlineCheck_documented).mpr offlineCheck_unanswered

end BlockchainAuditor
