import BlockchainAuditor.LedgerQueries

/-! What the list, the verifier and the status of the gateway answer about one ledger. -/

namespace BlockchainAuditor

open CStrings JavaScript KeyedPuts

theorem parse_brace {text : JsString} {value : Json} (reads : parse (123 :: text) = some value) :
    ∃ members, value = .object members := by
  obtain ⟨⟨first, rest⟩, found, ends⟩ := Option.bind_eq_some_iff.mp reads
  dsimp only at ends
  split at ends
  · obtain rfl := Option.some.inj ends
    rw [parseValue_brace] at found
    split at found
    · exact ⟨[], (Prod.mk.inj (Option.some.inj found)).1.symm⟩
    · obtain ⟨members, same, _⟩ := (cost_rule.reads _).2.1 _ _ _ _ found
      exact ⟨members, same⟩
  · simp at ends

def SameNumber (sha256 : Bytes → Digest) (ledger : Ledger) : Prop :=
  ∃ count : ℤ,
    (Handlers.handleStatus true (FabricClient.getTotalCount ledger)).body.get "events" =
      some (some (.number (.finite count))) ∧
    (∃ events, (Handlers.listEvents true (FabricClient.getAllEvents ledger)).body = .array events ∧
      (events.length : ℤ) = count) ∧
    (Handlers.handleVerify sha256 (units "GET") true (FabricClient.getAllEvents ledger)).body.get
      "total" = some (some (.number (.finite count)))

theorem countText_wellFormed (count : ℕ) :
    WellFormed (Json.object [(units "count", .number (.finite count))]).stringify := by
  obtain ⟨front, digit, text, small, ascii⟩ := integer_ends count
  rw [Int.cast_natCast] at text
  have number : WellFormed (numberJson (.finite count)) := by
    change WellFormed (JsNumber.finite (count : ℚ)).text
    rw [text]
    apply wellFormed_ascii
    exact List.forall_mem_append.mpr ⟨ascii, by simpa using digitUnit_lt small⟩
  have key : WellFormed (quoteText (units "count") ++ units ":") :=
    (quoteText_wellFormed _).append (wellFormed_units (by decide))
  rw [Json.stringify, stringifyMembers]
  exact ((wellFormed_units (by decide)).append ((key.append number).append wellFormed_nil)).append
    (wellFormed_units (by decide))

/-- `getTotalCount` hands on the object that the chaincode writes, not the number in it. -/
theorem getTotalCount_object {ledger : Ledger} {value : Json}
    (counted : FabricClient.getTotalCount ledger = .ok value) : ∃ members, value = .object members := by
  rw [FabricClient.getTotalCount, getTotalCount_eq, FabricClient.readResult, bind_ok_iff] at counted
  obtain ⟨payload, answered, read⟩ := counted
  obtain rfl := Except.ok.inj answered
  split at read
  · rename_i value parsed
    obtain rfl := Except.ok.inj read
    rw [countAnswer, (countText_wellFormed _).decoded] at parsed
    exact parse_brace parsed
  · simp at read

theorem handleStatus_events (counted : Throws Json) :
    (Handlers.handleStatus true counted).body.get "events" =
      some (some (match counted with
        | .ok count => count
        | .error _ => .number (.finite (-1)))) := by
  cases counted <;> rfl

theorem status_no_count (ledger : Ledger) (count : ℕ) :
    (Handlers.handleStatus true (FabricClient.getTotalCount ledger)).body.get "events" ≠
      some (some (.number (.finite (count : ℤ)))) := by
  intro status
  rw [handleStatus_events] at status
  cases counted : FabricClient.getTotalCount ledger with
  | ok value =>
      obtain ⟨members, rfl⟩ := getTotalCount_object counted
      simp [counted] at status
  | error message =>
      simp only [counted, Option.some.injEq, Json.number.injEq, JsNumber.finite.injEq] at status
      have negative : (count : ℤ) = -1 := by exact_mod_cast status.symm
      omega

theorem endpoints_differ (sha256 : Bytes → Digest) (ledger : Ledger) : ¬SameNumber sha256 ledger := by
  rintro ⟨count, status, ⟨events, _, rfl⟩, _⟩
  exact status_no_count ledger events.length status

theorem emptyLedger_status : ¬SameNumber (fun _ => Vector.replicate 32 0) ∅ := by
  rintro ⟨count, status, ⟨events, _, rfl⟩, _⟩
  exact status_no_count ∅ events.length status

def isString (value : JsValue) : Bool :=
  match value with
  | some (.string _) => true
  | _ => false

def takesText (ev : Json) (name : String) : Bool :=
  (ev.get name).any fun value => !truthy value || isString value

/-- `String(ev.name || 0)` does not throw. The engine's recursion limit, which an array nested
thousands deep can reach, is left out. -/
def takesNumber (ev : Json) (name : String) : Bool :=
  (ev.get name).any fun value => (orElse value (.number (.finite 0))).toText.isSome

def Hashable (ev : Json) : Bool :=
  takesText ev "event_type" && takesText ev "command" && takesText ev "user" &&
    takesNumber ev "pid" && takesText ev "cwd" && takesText ev "timestamp" &&
    takesNumber ev "return_code"

variable {ev : Json} {name : String} {sha256 : Bytes → Digest}

theorem textPart_ok_iff : (∃ text, textPart ev name = .ok text) ↔ takesText ev name = true := by
  unfold textPart takesText property
  cases ev.get name with
  | none => simp [Bind.bind, Except.bind]
  | some value =>
      by_cases present : truthy value = true
      · cases value with
        | none => simp [truthy] at present
        | some content =>
            cases content <;> simp [Bind.bind, Except.bind, orElse, present, isString]
      · have replaced : orElse value (.string []) = .string [] := by
          cases value with
          | none => rfl
          | some content => simp [orElse, present]
        simp [Bind.bind, Except.bind, replaced, present]

theorem numberPart_ok_iff : (∃ text, numberPart ev name = .ok text) ↔ takesNumber ev name = true := by
  unfold numberPart takesNumber property
  cases ev.get name with
  | none => simp [Bind.bind, Except.bind]
  | some value =>
      cases converted : (orElse value (.number (.finite 0))).toText with
      | none => simp [Bind.bind, Except.bind, converted]
      | some text => simp [Bind.bind, Except.bind, converted]

theorem bind_answers {α β : Type} {first : Throws α} {next : α → Throws β} {each : Prop}
    (later : ∀ value, (∃ result, next value = .ok result) ↔ each) :
    (∃ result, (first >>= next) = .ok result) ↔ (∃ value, first = .ok value) ∧ each := by
  constructor
  · rintro ⟨result, answered⟩
    obtain ⟨value, called, rest⟩ := bind_ok_iff.mp answered
    exact ⟨⟨value, called⟩, (later value).mp ⟨result, rest⟩⟩
  · rintro ⟨⟨value, called⟩, holds⟩
    obtain ⟨result, rest⟩ := (later value).mpr holds
    exact ⟨result, bind_ok_iff.mpr ⟨value, called, rest⟩⟩

theorem hashedText_ok_iff : (∃ text, hashedText ev = .ok text) ↔ Hashable ev = true := by
  unfold hashedText Hashable
  simp only [Bool.and_eq_true, ← textPart_ok_iff, ← numberPart_ok_iff, and_assoc]
  iterate 6
    refine bind_answers fun _ => ?_
  exact (bind_answers fun _ => iff_of_true ⟨_, rfl⟩ trivial).trans (and_iff_left trivial)

def failedHashes (sha256 : Bytes → Digest) (events : List Json) : List Json :=
  events.filterMap fun ev =>
    match computeSHA256 sha256 ev, ev.get "hash" with
    | .ok expectedHash, some hash => if isText hash expectedHash then none else some (hash.getD .null)
    | _, _ => none

theorem takesText_hash (takes : takesText ev name = true) : ∃ hash, ev.get "hash" = some hash := by
  cases ev with
  | null => simp [takesText, Json.get] at takes
  | _ => exact ⟨_, rfl⟩

theorem verifyEvents_cons_hashable (hashable : Hashable ev = true) (rest : List Json) (verified : Bool)
    (failed : List Json) :
    Handlers.verifyEvents sha256 (ev :: rest) verified failed =
      Handlers.verifyEvents sha256 rest (verified && (failedHashes sha256 [ev]).isEmpty)
        (failed ++ failedHashes sha256 [ev]) := by
  obtain ⟨text, hashed⟩ := hashedText_ok_iff.mpr hashable
  obtain ⟨hash, got⟩ : ∃ hash, ev.get "hash" = some hash := by
    simp only [Hashable, Bool.and_eq_true] at hashable
    exact takesText_hash hashable.1.2
  have computed : computeSHA256 sha256 ev = .ok (hexUnits (sha256 text)) := by
    rw [computeSHA256, hashed]
    rfl
  rw [Handlers.verifyEvents, computed, property_ok_iff.mpr got]
  by_cases same : isText hash (hexUnits (sha256 text)) = true
  · simp [Bind.bind, Except.bind, same, failedHashes, computed, got]
  · simp [Bind.bind, Except.bind, same, failedHashes, computed, got]

theorem failedHashes_cons (ev : Json) (rest : List Json) :
    failedHashes sha256 (ev :: rest) = failedHashes sha256 [ev] ++ failedHashes sha256 rest := by
  rw [← List.singleton_append, failedHashes, List.filterMap_append]
  rfl

theorem verifyEvents_hashable {events : List Json} (hashable : ∀ ev ∈ events, Hashable ev = true)
    (verified : Bool) (failed : List Json) :
    Handlers.verifyEvents sha256 events verified failed =
      .ok (verified && (failedHashes sha256 events).isEmpty, failed ++ failedHashes sha256 events) := by
  induction events generalizing verified failed with
  | nil => simp [Handlers.verifyEvents, failedHashes]
  | cons ev rest ih =>
      obtain ⟨first, others⟩ := List.forall_mem_cons.mp hashable
      rw [verifyEvents_cons_hashable first, ih others, failedHashes_cons ev rest]
      cases failedHashes sha256 [ev] <;> simp

theorem verifyEvents_hashable_of_ok {events : List Json} {verified : Bool} {failed : List Json}
    {result : Bool × List Json}
    (judged : Handlers.verifyEvents sha256 events verified failed = .ok result) :
    ∀ ev ∈ events, Hashable ev = true := by
  induction events generalizing verified failed with
  | nil => simp
  | cons ev rest ih =>
      obtain ⟨expectedHash, computed, judged⟩ := bind_ok_iff.mp judged
      obtain ⟨hash, _, judged⟩ := bind_ok_iff.mp judged
      obtain ⟨text, hashed, _⟩ := bind_ok_iff.mp computed
      refine List.forall_mem_cons.mpr ⟨hashedText_ok_iff.mp ⟨text, hashed⟩, ?_⟩
      split at judged
      · exact ih judged
      · exact ih judged

def postedEvents (shim : Shim) (bodies : List Json) : Ledger :=
  run shim ∅ (bodies.map fun body => .createEvent true body .acknowledged)

def listedEvents (ledger : Ledger) : List Json :=
  match FabricClient.getAllEvents ledger with
  | .ok (.array events) => events
  | _ => []

def AllParse (ledger : Ledger) : Prop :=
  ∀ (key : StateKey) (bytes : Bytes), ledger[key]? = some bytes →
    (parse (decodeUtf8 bytes)).isSome = true

variable {shim : Shim} {ledger : Ledger}

theorem submitArgument_decoded (event : Json) :
    decodeUtf8 (encodeUtf8 (FabricClient.submitArgument event)) = FabricClient.submitArgument event :=
  WellFormed.decoded ⟨decodeFrom 0 (encodeUtf8 event.stringify), rfl⟩

theorem step_allParse (allParse : AllParse ledger) (online : Bool) (body : Json)
    (submission : Submission) : AllParse (step shim ledger (.createEvent online body submission)) := by
  rcases step_cases shim ledger (.createEvent online body submission) with
    same | ⟨eventJSON, key, bytes, payload, creates, puts, put⟩
  · rw [same]
    exact allParse
  · intro other content held
    rw [put, Std.ExtTreeMap.getElem?_insert] at held
    split at held
    · obtain rfl := Option.some.inj held
      rw [Operation.eventJSON] at creates
      split at creates
      · obtain rfl := Option.some.inj creates
        obtain ⟨event, hash, parsed, _⟩ := puts.accepted
        rw [puts.bytes_eq, Option.getD_some, submitArgument_decoded]
        rw [Option.getD_some] at parsed
        rw [parsed]
        rfl
      · simp at creates
    · exact allParse other content held

theorem postedEvents_allParse (shim : Shim) (bodies : List Json) :
    AllParse (postedEvents shim bodies) := by
  have runs : ∀ ledger, AllParse ledger →
      AllParse (run shim ledger (bodies.map fun body => .createEvent true body .acknowledged)) := by
    induction bodies with
    | nil => exact fun ledger allParse => allParse
    | cons body rest ih => exact fun ledger allParse => ih _ (step_allParse allParse true body _)
  apply runs
  intro key bytes held
  simp at held

theorem getAllEvents_listed (ledger : Ledger) :
    FabricClient.getAllEvents ledger = .ok (.array (listedEvents ledger)) ∧
      (listedEvents ledger).length = (listedKeys ledger).length := by
  obtain ⟨read, parsed, length⟩ := getAllEvents_read ledger
  have answered : FabricClient.getAllEvents ledger = .ok (.array read) := by
    simp [FabricClient.getAllEvents, FabricClient.readResult, Bind.bind, Except.bind, parsed]
  have listed : listedEvents ledger = read := by rw [listedEvents, answered]
  rw [listed]
  exact ⟨answered, length⟩

/-- The range that `getAllEvents` asks for covers every key. -/
def SimpleKeys (ledger : Ledger) : Prop :=
  ∀ key : StateKey, key ∈ ledger → key.head?.any (· ≠ 0) = true

theorem listedKeys_size (allParse : AllParse ledger) :
    (listedKeys ledger).length = ledger.size ↔ SimpleKeys ledger := by
  have kept : listedKeys ledger = (AuditChaincode.simpleEntries ledger).map Prod.fst := by
    rw [listedKeys, List.filter_eq_self.mpr]
    intro entry member
    apply allParse entry.1 entry.2
    exact Std.ExtTreeMap.mem_toList_iff_getElem?_eq_some.mp (List.mem_of_mem_filter member)
  rw [kept, List.length_map, AuditChaincode.simpleEntries, ← Std.ExtTreeMap.length_toList,
    List.length_filter_eq_length_iff]
  constructor
  · intro all key member
    have held : (key, ledger[key]) ∈ ledger.toList :=
      Std.ExtTreeMap.mem_toList_iff_getElem?_eq_some.mpr (Std.ExtTreeMap.getElem?_eq_some_getElem member)
    exact all _ held
  · intro simple entry member
    apply simple
    apply Std.ExtTreeMap.mem_iff_isSome_getElem?.mpr
    rw [Std.ExtTreeMap.mem_toList_iff_getElem?_eq_some.mp member]
    rfl

/-- The verifier judges every stored event. -/
def JudgesAll (sha256 : Bytes → Digest) (ledger : Ledger) : Prop :=
  Handlers.handleVerify sha256 (units "GET") true (FabricClient.getAllEvents ledger) =
    Handlers.report (failedHashes sha256 (listedEvents ledger)).isEmpty ledger.size
      (failedHashes sha256 (listedEvents ledger))

theorem report_injective {verified other : Bool} {total otherTotal : ℕ} {failed others : List Json}
    (same : Handlers.report verified total failed = Handlers.report other otherTotal others) :
    total = otherTotal := by
  simp only [Handlers.report, Response.mk.injEq, Json.object.injEq, List.cons.injEq, Prod.mk.injEq,
    Json.number.injEq, JsNumber.finite.injEq, true_and] at same
  exact_mod_cast same.2.1

theorem handleVerify_hashable {events : List Json} (hashable : ∀ ev ∈ events, Hashable ev = true) :
    Handlers.handleVerify sha256 (units "GET") true (.ok (.array events)) =
      Handlers.report (failedHashes sha256 events).isEmpty events.length
        (failedHashes sha256 events) := by
  simp [Handlers.handleVerify, verifyEvents_hashable hashable]

theorem handleVerify_answers {events : List Json} {verified : Bool} {total : ℕ} {failed : List Json}
    (answered : Handlers.handleVerify sha256 (units "GET") true (.ok (.array events)) =
      Handlers.report verified total failed) : ∀ ev ∈ events, Hashable ev = true := by
  cases judged : Handlers.verifyEvents sha256 events true [] with
  | ok result => exact verifyEvents_hashable_of_ok judged
  | error message => simp [Handlers.handleVerify, judged, Handlers.report, Response.error] at answered

theorem judgesAll_iff (shim : Shim) (bodies : List Json) :
    JudgesAll sha256 (postedEvents shim bodies) ↔
      SimpleKeys (postedEvents shim bodies) ∧
        ∀ ev ∈ listedEvents (postedEvents shim bodies), Hashable ev = true := by
  have allParse := postedEvents_allParse shim bodies
  generalize postedEvents shim bodies = ledger at allParse ⊢
  obtain ⟨listed, length⟩ := getAllEvents_listed ledger
  rw [JudgesAll, listed, ← listedKeys_size allParse, ← length]
  constructor
  · intro judges
    have hashable := handleVerify_answers judges
    rw [handleVerify_hashable hashable] at judges
    exact ⟨report_injective judges, hashable⟩
  · rintro ⟨size, hashable⟩
    rw [handleVerify_hashable hashable, size]

def wordsBody : Json :=
  .object [(units "hash", Response.text "00ff"), (units "command", .array [Response.text "ls"])]

theorem wordsBody_stops :
    (Handlers.createEvent true (submitEvent stringsOnly .acknowledged) wordsBody ∅).1.status = 201 ∧
      ¬JudgesAll (fun _ => Vector.replicate 32 0) (postedEvents stringsOnly [wordsBody]) := by
  constructor
  · decide +kernel
  · intro judges
    have answered := (getAllEvents_listed (postedEvents stringsOnly [wordsBody])).1
    rw [JudgesAll, answered] at judges
    have unhashable : (listedEvents (postedEvents stringsOnly [wordsBody])).all Hashable = false := by
      decide +kernel
    have hashable := List.all_eq_true.mpr (handleVerify_answers judges)
    rw [unhashable] at hashable
    exact Bool.noConfusion hashable

end BlockchainAuditor
