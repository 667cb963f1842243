import BlockchainAuditor.HttpGet
import BlockchainAuditor.LogTampering
import BlockchainAuditor.ProcMonitor

/-! `cmd_integrity_test` of `main.c`: its requests, the loop over the log, and what its verdict
depends on. -/

namespace BlockchainAuditor

open CStrings CharArray KeyedText LineReader

structure IntegrityReport where
  verdicts : List LineVerdict
  verified : Nat
  failed : Nat
  deriving DecidableEq

def IntegrityReport.add (report : IntegrityReport) (verdict : LineVerdict) : IntegrityReport :=
  match verdict with
  | .verified =>
    { report with verdicts := report.verdicts ++ [verdict], verified := report.verified + 1 }
  | _ => { report with verdicts := report.verdicts ++ [verdict], failed := report.failed + 1 }

def IntegrityReport.rc (report : IntegrityReport) : Int := if 0 < report.failed then 1 else 0

def IntegrityReport.counts (report : IntegrityReport) : Nat × Nat × Int :=
  (report.verified, report.failed, report.rc)

/-- What the command meets when it asks the gateway. `block` is what `malloc(0)` gives for the first
request, and `response` the array of the second. -/
structure GatewayCheck where
  client : HttpClient
  heap : Heap
  network : Bytes → Transfer
  block : Option (Block (0 : UInt64).toNat)
  response : CharArray (16384 : UInt64).toNat

/-- `http_client_get("/api/verify", NULL, 0)`. -/
def GatewayCheck.first (check : GatewayCheck) : Option Int := do
  let null : Option (CharArray (0 : UInt64).toNat) := none
  return (← httpClientGetIn check.client check.heap check.network verifyEndpoint check.block null).rc

def GatewayCheck.run (check : GatewayCheck) : Option Unit := do
  if (← check.first) = 0 then
    let _ ← httpClientGet check.client check.heap check.network verifyEndpoint (some check.response)
  return ()

section Command

variable (sha256 : Bytes → Digest) (overflow : Overflow)

/-- `storedHash` is the uninitialised local array of each turn. -/
def integrityLoop (storedHash : Nat → CharArray hashHexSize) :
    Nat → IntegrityReport → List Bytes → Option IntegrityReport
  | _, report, [] => some report
  | i, report, line :: rest => do
    let verdict ← checkLine sha256 overflow (storedHash i) line
    integrityLoop storedHash (i + 1) (report.add verdict) rest

def integrityTest (storedHash : Nat → CharArray hashHexSize) (log : Option Bytes) :
    Option IntegrityReport :=
  integrityLoop sha256 overflow storedHash 0 ⟨[], 0, 0⟩ (localLogReadAll log)

def tamperAndTest (storedHash : Nat → CharArray hashHexSize) (writable : Bool)
    (newLine : CharArray lineBufferSize) (argv : List Bytes) (log : Option Bytes) :
    Option (Int × IntegrityReport × Option Bytes) := do
  let tamperLine ←
    match argv with
    | [] => pure (-1)
    | first :: _ => do pure (← atoi overflow first).toInt
  let tamperValue := argv.getD 1 (ascii "TAMPERED")
  let log ←
    if 0 ≤ tamperLine ∧ tamperLine < (localLogReadAll log).length then do
      pure (← localLogSimulateTamper writable newLine log tamperLine tamperValue).2
    else pure log
  let report ← integrityTest sha256 overflow storedHash log
  return (report.rc, report, log)

def cmdIntegrityTest (check : GatewayCheck) (storedHash : Nat → CharArray hashHexSize)
    (writable : Bool) (newLine : CharArray lineBufferSize) (argv : List Bytes)
    (log : Option Bytes) : Option (Int × IntegrityReport × Option Bytes) := do
  check.run
  tamperAndTest sha256 overflow storedHash writable newLine argv log

end Command

/-! The first request follows its null pointer as soon as the gateway answers it. -/

theorem GatewayCheck.first_fails {check : GatewayCheck} {rc : Int} (came : check.first = some rc) :
    rc = -1 := by
  obtain ⟨outcome, got, same⟩ := Option.bind_eq_some_iff.mp came
  obtain rfl := Option.some.inj same
  unfold httpClientGetIn at got
  split at got
  · obtain rfl := Option.some.inj got
    rfl
  · obtain ⟨block, -, got⟩ := Option.bind_eq_some_iff.mp got
    obtain ⟨data, -, got⟩ := Option.bind_eq_some_iff.mp got
    obtain ⟨⟨taken, buf⟩, -, got⟩ := Option.bind_eq_some_iff.mp got
    by_cases completes : (if taken then curlEasyPerform (requested check.client check.network
        verifyEndpoint).exchange else curleWriteError) = curleOk
    · have crashes := (if_pos completes).symm.trans got
      cases crashes
    · obtain rfl := Option.some.inj ((if_neg completes).symm.trans got)
      rfl

theorem GatewayCheck.run_eq (check : GatewayCheck) : check.run = check.first.map fun _ => () := by
  rw [GatewayCheck.run]
  cases came : check.first with
  | none => rfl
  | some rc =>
      rw [Option.bind_eq_bind, Option.bind_some, check.first_fails came, if_neg (by decide)]
      rfl

theorem GatewayCheck.first_begun {check : GatewayCheck} {block : Block (0 : UInt64).toNat}
    (handle : check.client.curl ≠ false) (given : check.block = some block)
    {data : CharArray block.usable} (written : block.data.write 0 0 = some data) {taken : Bool}
    {buf : WriteBuf}
    (received : receive check.heap (requested check.client check.network verifyEndpoint).chunks
      ⟨block.usable, data, 0, (0 : UInt64).toNat⟩ = some (taken, buf)) :
    check.first = if (if taken then curlEasyPerform (requested check.client check.network
      verifyEndpoint).exchange else curleWriteError) = curleOk then none else some (-1) := by
  rw [GatewayCheck.first, httpClientGetIn, if_neg handle, given]
  simp only [Option.bind_eq_bind, Option.bind_some, written]
  change ((receive check.heap (requested check.client check.network
    verifyEndpoint).chunks _).bind _).bind _ = _
  rw [received, Option.bind_some, requested]
  generalize (if taken then curlEasyPerform (check.network (snprintf 1024
    (check.client.baseUrl.str ++ verifyEndpoint))).exchange else curleWriteError) = res
  by_cases completes : res = curleOk
  · rw [if_pos completes, if_pos completes]
    rfl
  · rw [if_neg completes, if_neg completes]
    rfl

/-- There is no handle, or there is no answer, or no memory for it. -/
def GatewayCheck.Unanswered (check : GatewayCheck) : Prop :=
  check.client.curl = false ∨ startable check.block = true ∧
    ¬Delivered check.heap 0 (requested check.client check.network verifyEndpoint).filled

theorem GatewayCheck.first_iff {check : GatewayCheck}
    (documented : (requested check.client check.network verifyEndpoint).Documented) :
    check.first = some (-1) ↔ check.Unanswered := by
  rw [GatewayCheck.Unanswered]
  by_cases handle : check.client.curl = false
  · simp [GatewayCheck.first, httpClientGetIn, handle]
  rw [or_iff_right handle]
  cases given : check.block with
  | none => simp [GatewayCheck.first, httpClientGetIn, handle, given, startable]
  | some block =>
      by_cases room : 0 < block.usable
      · obtain ⟨data, written⟩ : ∃ data, block.data.write 0 0 = some data := by
          simp [CharArray.write, room]
        have receives : Completes (receive check.heap (requested check.client check.network
          verifyEndpoint).chunks ⟨block.usable, data, 0, (0 : UInt64).toNat⟩) _ :=
          receive_documented data documented
        obtain ⟨⟨taken, buf⟩, received, grown⟩ := receives
        have fits : startable (some block) = true := by simpa [startable] using room
        rw [GatewayCheck.first_begun handle given written received, and_iff_right fits]
        constructor
        · intro failed delivered
          have completed : curlEasyPerform (requested check.client check.network
              verifyEndpoint).exchange = curleOk := delivered.completed
          rw [if_pos (grown.mpr delivered.grown), if_pos completed] at failed
          cases failed
        · intro failed
          rw [if_neg]
          intro completes
          cases taken with
          | false => exact absurd (show curleWriteError = curleOk from completes) (by decide)
          | true => exact failed ⟨completes, grown.mp rfl⟩
      · simp [GatewayCheck.first, httpClientGetIn, handle, given, startable, CharArray.write, room]

section Loop

variable {sha256 : Bytes → Digest} {overflow : Overflow} {storedHash : Nat → CharArray hashHexSize}

def lineVerdicts (sha256 : Bytes → Digest) (overflow : Overflow)
    (storedHash : Nat → CharArray hashHexSize) : Nat → List Bytes → Option (List LineVerdict)
  | _, [] => some []
  | i, line :: rest => do
    let verdict ← checkLine sha256 overflow (storedHash i) line
    return verdict :: (← lineVerdicts sha256 overflow storedHash (i + 1) rest)

theorem integrityLoop_eq (i : Nat) (report : IntegrityReport) (lines : List Bytes) :
    integrityLoop sha256 overflow storedHash i report lines =
      (lineVerdicts sha256 overflow storedHash i lines).map (·.foldl IntegrityReport.add report) := by
  induction lines generalizing i report with
  | nil => rfl
  | cons line rest ih =>
      rw [integrityLoop, lineVerdicts]
      cases checkLine sha256 overflow (storedHash i) line with
      | none => rfl
      | some verdict =>
          simp only [Option.bind_eq_bind, Option.bind_some, ih]
          cases lineVerdicts sha256 overflow storedHash (i + 1) rest <;> rfl

theorem add_all (verdicts : List LineVerdict) (report : IntegrityReport) :
    (verdicts.foldl IntegrityReport.add report).verdicts = report.verdicts ++ verdicts ∧
      (verdicts.foldl IntegrityReport.add report).failed =
        report.failed + verdicts.countP (· ≠ .verified) := by
  induction verdicts generalizing report with
  | nil => simp
  | cons verdict rest ih =>
      obtain ⟨reported, failed⟩ := ih (report.add verdict)
      rw [List.foldl_cons, reported, failed]
      cases verdict <;> simp [IntegrityReport.add] <;> omega

theorem lineVerdicts_iff {i : Nat} {lines : List Bytes} {verdicts : List LineVerdict} :
    lineVerdicts sha256 overflow storedHash i lines = some verdicts ↔
      verdicts.length = lines.length ∧ ∀ index line, lines[index]? = some line →
        checkLine sha256 overflow (storedHash (i + index)) line = verdicts[index]? := by
  induction lines generalizing i verdicts with
  | nil =>
      rw [lineVerdicts, Option.some.injEq, List.length_nil, List.length_eq_zero_iff]
      constructor
      · rintro rfl
        exact ⟨rfl, by simp⟩
      · exact fun holds => holds.1.symm
  | cons line rest ih =>
      rw [lineVerdicts]
      constructor
      · intro ran
        obtain ⟨verdict, checked, ran⟩ := Option.bind_eq_some_iff.mp ran
        obtain ⟨others, later, gives⟩ := Option.bind_eq_some_iff.mp ran
        obtain rfl := Option.some.inj gives
        obtain ⟨length, each⟩ := ih.mp later
        refine ⟨by simp [length], ?_⟩
        intro index other here
        cases index with
        | zero =>
            obtain rfl : line = other := by simpa using here
            simpa using checked
        | succ index =>
            rw [show i + (index + 1) = i + 1 + index by omega]
            exact each index other (by simpa using here)
      · rintro ⟨length, each⟩
        cases verdicts with
        | nil => simp at length
        | cons verdict others =>
            have first := each 0 line rfl
            have later : lineVerdicts sha256 overflow storedHash (i + 1) rest = some others := by
              apply ih.mpr
              refine ⟨by simpa using length, ?_⟩
              intro index other here
              have next := each (index + 1) other (by simpa using here)
              rwa [show i + (index + 1) = i + 1 + index by omega] at next
            simp only [Nat.add_zero, List.getElem?_cons_zero] at first
            rw [first, later]
            rfl

theorem lineVerdicts_total {i : Nat} {lines : List Bytes} (each : ∀ index line,
    lines[index]? = some line → (checkLine sha256 overflow (storedHash (i + index)) line).isSome) :
    ∃ verdicts, lineVerdicts sha256 overflow storedHash i lines = some verdicts := by
  induction lines generalizing i with
  | nil => exact ⟨[], rfl⟩
  | cons line rest ih =>
      obtain ⟨verdict, first⟩ := Option.isSome_iff_exists.mp (each 0 line rfl)
      obtain ⟨others, later⟩ : ∃ others, lineVerdicts sha256 overflow storedHash (i + 1) rest =
          some others := by
        apply ih
        intro index other here
        have next := each (index + 1) other (by simpa using here)
        rwa [show i + (index + 1) = i + 1 + index by omega] at next
      refine ⟨verdict :: others, ?_⟩
      rw [Nat.add_zero] at first
      rw [lineVerdicts, first, later]
      rfl

theorem lineVerdicts_verified {lines : List Bytes} {holds : Nat → Prop} :
    (∃ verdicts, lineVerdicts sha256 overflow storedHash 0 lines = some verdicts ∧
      ∀ i < lines.length, verdicts[i]? = some .verified ↔ holds i) ↔
    ∀ i line, lines[i]? = some line → (checkLine sha256 overflow (storedHash i) line).isSome ∧
      (checkLine sha256 overflow (storedHash i) line = some .verified ↔ holds i) := by
  constructor
  · rintro ⟨verdicts, judged, verified⟩ i line here
    obtain ⟨length, each⟩ := lineVerdicts_iff.mp judged
    have bound := (List.getElem?_eq_some_iff.mp here).1
    have checked := each i line here
    rw [Nat.zero_add] at checked
    rw [checked]
    exact ⟨by simp [length, bound], verified i bound⟩
  · intro each
    have total : ∀ i line, lines[i]? = some line →
        (checkLine sha256 overflow (storedHash (0 + i)) line).isSome := by
      intro i line here
      rw [Nat.zero_add]
      exact (each i line here).1
    obtain ⟨verdicts, judged⟩ := lineVerdicts_total total
    refine ⟨verdicts, judged, ?_⟩
    intro i bound
    have here := List.getElem?_eq_getElem bound
    have checked := (lineVerdicts_iff.mp judged).2 i _ here
    rw [Nat.zero_add] at checked
    rw [← checked]
    exact (each i _ here).2

theorem integrityTest_iff {log : Option Bytes} {report : IntegrityReport} :
    integrityTest sha256 overflow storedHash log = some report ↔
      lineVerdicts sha256 overflow storedHash 0 (localLogReadAll log) = some report.verdicts ∧
        report = report.verdicts.foldl IntegrityReport.add ⟨[], 0, 0⟩ := by
  rw [integrityTest, integrityLoop_eq, Option.map_eq_some_iff]
  constructor
  · rintro ⟨verdicts, judged, rfl⟩
    have reported := (add_all verdicts ⟨[], 0, 0⟩).1
    rw [List.nil_append] at reported
    rw [reported]
    exact ⟨judged, rfl⟩
  · rintro ⟨judged, counted⟩
    exact ⟨report.verdicts, judged, counted.symm⟩

theorem integrityTest_verdicts {log : Option Bytes} {verdicts : List LineVerdict} :
    (∃ report, integrityTest sha256 overflow storedHash log = some report ∧
      report.verdicts = verdicts) ↔
    lineVerdicts sha256 overflow storedHash 0 (localLogReadAll log) = some verdicts := by
  constructor
  · rintro ⟨report, ran, rfl⟩
    exact (integrityTest_iff.mp ran).1
  · intro judged
    have collected := (add_all verdicts ⟨[], 0, 0⟩).1
    rw [List.nil_append] at collected
    refine ⟨verdicts.foldl IntegrityReport.add ⟨[], 0, 0⟩, ?_, collected⟩
    apply integrityTest_iff.mpr
    rw [collected]
    exact ⟨judged, rfl⟩

theorem integrityTest_rc {log : Option Bytes} {report : IntegrityReport}
    (ran : integrityTest sha256 overflow storedHash log = some report) :
    report.rc = 1 ↔ ∃ verdict ∈ report.verdicts, verdict ≠ .verified := by
  have counted := (add_all report.verdicts ⟨[], 0, 0⟩).2
  rw [← (integrityTest_iff.mp ran).2, Nat.zero_add] at counted
  have positive := List.countP_pos_iff (p := (· ≠ LineVerdict.verified)) (l := report.verdicts)
  rw [← counted] at positive
  rw [IntegrityReport.rc]
  simpa [Nat.pos_iff_ne_zero] using positive

end Loop

/-- The line decodes, and its hash is that of its content. -/
def Genuine (sha256 : Bytes → Digest) (overflow : Overflow) (line : Bytes) : Prop :=
  ∃ ev, auditEventFromJson overflow line = some (0, ev) ∧
    ev.hash.str = hexDigest (sha256 (hashText ev))

variable {sha256 : Bytes → Digest} {overflow : Overflow} {line : Bytes} {ev : AuditEvent}

theorem checkLine_verified_iff (nulFree : (0 : UInt8) ∉ line) (storedHash : CharArray hashHexSize) :
    checkLine sha256 overflow storedHash line = some .verified ↔
      Genuine sha256 overflow line ∧ storedHash.Ended := by
  constructor
  · intro verified
    obtain ⟨⟨rc, ev⟩, decodes, rest⟩ := Option.bind_eq_some_iff.mp verified
    by_cases accepted : rc = 0
    · subst accepted
      rw [checkLine_eq nulFree storedHash decodes] at verified
      by_cases fits : ev.hash.str = hexDigest (sha256 (hashText ev)) ∧ storedHash.Ended
      · exact ⟨⟨ev, decodes, fits.1⟩, fits.2⟩
      · simp [fits] at verified
    · simp [accepted] at rest
  · rintro ⟨⟨ev, decodes, own⟩, ended⟩
    rw [checkLine_eq nulFree storedHash decodes, if_pos ⟨own, ended⟩]

theorem integrityLoop_congr {first second : Nat → CharArray hashHexSize} {lines : List Bytes}
    (same : ∀ i, ∀ line ∈ lines, checkLine sha256 overflow (first i) line =
      checkLine sha256 overflow (second i) line) (i : Nat) (report : IntegrityReport) :
    integrityLoop sha256 overflow first i report lines =
      integrityLoop sha256 overflow second i report lines := by
  induction lines generalizing i report with
  | nil => rfl
  | cons line rest ih =>
      rw [integrityLoop, integrityLoop, same i line List.mem_cons_self]
      have later := fun j other member => same j other (List.mem_cons_of_mem line member)
      simp only [ih later]

theorem checkLine_forged (nulFree : (0 : UInt8) ∉ line) (forged : ¬Genuine sha256 overflow line)
    (first second : CharArray hashHexSize) :
    checkLine sha256 overflow first line = checkLine sha256 overflow second line := by
  cases decoded : auditEventFromJson overflow line with
  | none => simp [checkLine, decoded]
  | some result =>
      obtain ⟨rc, ev⟩ := result
      by_cases accepted : rc = 0
      · subst accepted
        have other : ev.hash.str ≠ hexDigest (sha256 (hashText ev)) :=
          fun own => forged ⟨ev, decoded, own⟩
        rw [checkLine_eq nulFree first decoded, checkLine_eq nulFree second decoded]
        simp [other]
      · simp [checkLine, decoded, accepted]

/-- The counts and the returned number do not depend on what the local arrays hold before, and
every line with its own hash is counted as verified. -/
structure VerdictOfLog (sha256 : Bytes → Digest) (overflow : Overflow) (log : Option Bytes) :
    Prop where
  independent : ∀ first second : Nat → CharArray hashHexSize,
    (integrityTest sha256 overflow first log).map IntegrityReport.counts =
      (integrityTest sha256 overflow second log).map IntegrityReport.counts
  counted : ∀ line ∈ localLogReadAll log, Genuine sha256 overflow line →
    ∀ storedHash, checkLine sha256 overflow storedHash line = some .verified

def filledHash : CharArray hashHexSize := ⟨List.replicate hashHexSize 255, List.length_replicate⟩

theorem genuine_dependent {log : Option Bytes} (member : line ∈ localLogReadAll log)
    (genuine : Genuine sha256 overflow line) : ¬VerdictOfLog sha256 overflow log := by
  intro verdict
  have nulFree := (localLogReadAll_plain log line member).1.nulFree
  have verified := verdict.counted line member genuine filledHash
  exact absurd ((checkLine_verified_iff nulFree filledHash).mp verified).2 (by decide)

theorem verdictOfLog_iff {log : Option Bytes} :
    VerdictOfLog sha256 overflow log ↔
      ∀ line ∈ localLogReadAll log, ¬Genuine sha256 overflow line := by
  constructor
  · intro verdict line member genuine
    exact genuine_dependent member genuine verdict
  · intro forged
    constructor
    · intro first second
      have same : integrityTest sha256 overflow first log =
          integrityTest sha256 overflow second log := by
        apply integrityLoop_congr
        intro i line member
        exact checkLine_forged (localLogReadAll_plain log line member).1.nulFree (forged line member) _ _
      rw [same]
    · intro line member genuine
      exact absurd genuine (forged line member)

theorem idLine_genuine {command : String} (spelled : command = "id" ∨ command = "\\i\\d") :
    Genuine (fun _ => idDigest) (fun _ => none) (idLine command) :=
  ⟨idEvent, idLine_decodes spelled, idEvent_sealed⟩

theorem idLog_read : localLogReadAll (some (fileText [idLine "id"])) = [idLine "id"] := by
  have plain : ∀ line ∈ [idLine "id"], Plain line := by
    simp only [List.forall_mem_cons]
    exact ⟨idLine_plain, by simp⟩
  apply (readLines_fileText_iff (by decide) plain).mpr
  apply readBack_of_short _ (by decide)
  simp only [List.forall_mem_cons]
  exact ⟨by decide +kernel, by simp⟩

theorem idLog_dependent :
    ¬VerdictOfLog (fun _ => idDigest) (fun _ => none) (some (fileText [idLine "id"])) := by
  apply genuine_dependent _ (idLine_genuine (Or.inl rfl))
  rw [idLog_read]
  exact List.mem_cons_self

end BlockchainAuditor
