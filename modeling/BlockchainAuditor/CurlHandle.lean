import BlockchainAuditor.EventEncoding
import BlockchainAuditor.HttpGet
import BlockchainAuditor.Library.Lifetimes

/-! The handle that `http_client_post_event` and `http_client_get` share: the options they leave
on it, the objects these refer to, and what each `curl_easy_perform` finds. What the two calls
return is `httpClientPostEvent` and `httpClientGet`. -/

namespace BlockchainAuditor

open CStrings CharArray Lifetimes

abbrev Ref := Nat

inductive Object
  | chars (memory : Bytes)
  | slist (lines : List Bytes)
  | writeBuf (buf : WriteBuf)

/-- `curl_easy_setopt`. The strings of the URL and the user agent are copied. -/
inductive CurlOption
  | timeout (seconds : Int)
  | connectTimeout (seconds : Int)
  | userAgent (text : Bytes)
  | url (text : Bytes)
  | httpGet
  | postFields (data : Option Ref)
  | postFieldSize (size : Int)
  | httpHeader (list : Option Ref)
  | writeFunction
  | writeData (buf : Ref)

inductive HttpMethod
  | get
  | post
  deriving DecidableEq

structure EasyOptions where
  timeout : Int
  connectTimeout : Int
  userAgent : Option Bytes
  url : Option Bytes
  method : HttpMethod
  postFields : Option Ref
  postFieldSize : Int
  httpHeader : Option Ref
  writesBack : Bool
  writeData : Option Ref

def EasyOptions.set (options : EasyOptions) : CurlOption → EasyOptions
  | .timeout seconds => { options with timeout := seconds }
  | .connectTimeout seconds => { options with connectTimeout := seconds }
  | .userAgent text => { options with userAgent := some text }
  | .url text => { options with url := some text }
  | .httpGet => { options with method := .get }
  | .postFields data => { options with method := .post, postFields := data }
  | .postFieldSize size => { options with postFieldSize := size }
  | .httpHeader list => { options with httpHeader := list }
  | .writeFunction => { options with writesBack := true }
  | .writeData buf => { options with writeData := some buf }

def EasyOptions.refs (options : EasyOptions) : List Ref :=
  options.postFields.toList ++ options.httpHeader.toList ++ options.writeData.toList

structure Libcurl where
  Handle : Type
  setopt : Handle → CurlOption → Handle
  perform : Handle → Handle
  options : Handle → EasyOptions

/-- Options persist between transfers, and each sets what its documentation says: `HTTPGET` selects
GET, and `POSTFIELDS` selects POST, also with a null pointer. -/
structure Libcurl.Documented (libcurl : Libcurl) : Prop where
  sets : ∀ handle option,
    libcurl.options (libcurl.setopt handle option) = (libcurl.options handle).set option
  persists : ∀ handle, libcurl.options (libcurl.perform handle) = libcurl.options handle

structure HttpState (libcurl : Libcurl) where
  curl : Option libcurl.Handle
  baseUrl : CharArray 512
  memory : Memory Object

structure Performed where
  options : EasyOptions
  memory : Memory Object

section Calls

variable {libcurl : Libcurl}

def httpClientInit (easyInit : Option libcurl.Handle) (gatewayUrl : Option Bytes) :
    Option (Int × HttpState libcurl) := do
  let gatewayUrl := gatewayUrl.getD (ascii "http://localhost:8443")
  let baseUrl ← (.zero : CharArray 512).strncpy (cString gatewayUrl) (512 - 1)
  match easyInit with
  | none => return (-1, { curl := none, baseUrl, memory := .empty })
  | some curl =>
    let curl := libcurl.setopt curl (.timeout 10)
    let curl := libcurl.setopt curl (.connectTimeout 5)
    let curl := libcurl.setopt curl (.userAgent (ascii "BlockchainOS-Auditor/1.0"))
    return (0, { curl := some curl, baseUrl, memory := .empty })

def strlen (memory : Bytes) : Nat := (memory.takeWhile (· ≠ 0)).length

def startBuffer {asked : Nat} (block : Option (Block asked)) : Option WriteBuf := do
  let block ← block
  return ⟨block.usable, ← block.data.write 0 0, 0, asked⟩

/-- `appended` tells whether `curl_slist_append` gets its memory; nothing is returned when the
buffer is accessed outside its block. The arrays of a call end with it. -/
def postEventOnHandle (state : HttpState libcurl) (ev : AuditEvent) (appended : Bool)
    (block : Option (Block 1024)) : Option (HttpState libcurl × List Performed) :=
  match state.curl with
  | none => some (state, [])
  | some curl => do
    let text := cString (auditEventToJson ev jsonEventMax)
    let json := state.memory.next
    let memory := state.memory.create (.chars text)
    let url := snprintf 1024 (state.baseUrl.str ++ ascii "/api/events")
    let headers := if appended then some memory.next else none
    let memory := if appended then
        memory.create (.slist [ascii "Content-Type: application/json"])
      else memory
    let curl := libcurl.setopt curl (.url url)
    let curl := libcurl.setopt curl (.postFields (some json))
    let curl := libcurl.setopt curl (.httpHeader headers)
    let curl := libcurl.setopt curl (.postFieldSize (strlen text))
    let started ← startBuffer block
    let buf := memory.next
    let memory := memory.create (.writeBuf started)
    let curl := libcurl.setopt curl .writeFunction
    let curl := libcurl.setopt curl (.writeData buf)
    let performed : Performed := ⟨libcurl.options curl, memory⟩
    let curl := libcurl.perform curl
    -- `curl_slist_free_all`, and then the arrays of the call
    let memory := headers.elim memory memory.discard
    let memory := (memory.discard buf).discard json
    return ({ state with curl := some curl, memory }, [performed])

def getOnHandle (state : HttpState libcurl) (endpoint : Bytes) {respSize : Nat}
    (block : Option (Block respSize)) : Option (HttpState libcurl × List Performed) :=
  match state.curl with
  | none => some (state, [])
  | some curl => do
    let url := snprintf 1024 (state.baseUrl.str ++ endpoint)
    let curl := libcurl.setopt curl (.url url)
    let curl := libcurl.setopt curl .httpGet
    let curl := libcurl.setopt curl (.postFields none)
    let curl := libcurl.setopt curl (.postFieldSize 0)
    let started ← startBuffer block
    let buf := state.memory.next
    let memory := state.memory.create (.writeBuf started)
    let curl := libcurl.setopt curl .writeFunction
    let curl := libcurl.setopt curl (.writeData buf)
    let performed : Performed := ⟨libcurl.options curl, memory⟩
    let curl := libcurl.perform curl
    return ({ state with curl := some curl, memory := memory.discard buf }, [performed])

end Calls

inductive HttpCall
  | postEvent (ev : AuditEvent) (appended : Bool) (block : Option (Block 1024))
  | get (endpoint : Bytes) {respSize : Nat} (block : Option (Block respSize))

def HttpCall.isGet : HttpCall → Bool
  | .postEvent _ _ _ => false
  | .get _ _ => true

def HttpCall.allocated : HttpCall → Bool
  | .postEvent _ _ block => startable block
  | .get _ block => startable block

def HttpCall.run {libcurl : Libcurl} (state : HttpState libcurl) :
    HttpCall → Option (HttpState libcurl × List Performed)
  | .postEvent ev appended block => postEventOnHandle state ev appended block
  | .get endpoint block => getOnHandle state endpoint block

/-- The transfers of a sequence of calls, which ends at an access outside a block. -/
def transfers {libcurl : Libcurl} (state : HttpState libcurl) :
    List HttpCall → List (HttpCall × Performed)
  | [] => []
  | call :: rest =>
    match call.run state with
    | none => []
    | some (next, performed) => performed.map (call, ·) ++ transfers next rest

structure Performed.Posts (performed : Performed) (baseUrl : CharArray 512) (ev : AuditEvent) :
    Prop where
  method : performed.options.method = .post
  url : performed.options.url = some (baseUrl.str ++ ascii "/api/events")
  body : ∃ json ∈ performed.options.postFields, ∃ text,
    performed.memory.objects json = some (.chars text) ∧
      text.take performed.options.postFieldSize.toNat = auditEventToJson ev jsonEventMax

structure Performed.Gets (performed : Performed) (baseUrl : CharArray 512) (endpoint : Bytes) :
    Prop where
  method : performed.options.method = .get
  url : performed.options.url = some (baseUrl.str ++ endpoint)

def HttpCall.Performs (baseUrl : CharArray 512) : HttpCall → Performed → Prop
  | .postEvent ev _ _, performed => performed.Posts baseUrl ev
  | .get endpoint _, performed => performed.Gets baseUrl endpoint

def Performed.RefersToLive (performed : Performed) : Prop :=
  ∀ ref ∈ performed.options.refs, performed.memory.Live ref

def AllSetUpRight {libcurl : Libcurl} (state : HttpState libcurl) (calls : List HttpCall) : Prop :=
  ∀ entry ∈ transfers state calls,
    entry.1.Performs state.baseUrl entry.2 ∧ entry.2.RefersToLive

theorem strlen_cString {text : Bytes} (nulFree : (0 : UInt8) ∉ text) :
    strlen (cString text) = text.length := by
  rw [strlen, cString, List.takeWhile_append_of_pos (ne_of_excluded nulFree)]
  simp

theorem auditEventToJson_nulFree (ev : AuditEvent) :
    (0 : UInt8) ∉ auditEventToJson ev jsonEventMax := by
  intro member
  have inside := List.mem_of_mem_take member
  rw [jsonText_eq] at inside
  exact recordItems_nulFree ev inside

theorem startBuffer_isSome {asked : Nat} (block : Option (Block asked)) :
    (startBuffer block).isSome = startable block := by
  cases block with
  | none => rfl
  | some given =>
      by_cases room : 0 < given.usable
      · simp [startBuffer, startable, CharArray.write, room]
      · simp [startBuffer, startable, CharArray.write, room]

theorem eventsUrl_fits (baseUrl : CharArray 512) :
    snprintf 1024 (baseUrl.str ++ ascii "/api/events") = baseUrl.str ++ ascii "/api/events" := by
  apply snprintf_fits
  have shorter : baseUrl.str.length ≤ baseUrl.cells.length := (List.takeWhile_prefix _).length_le
  have suffix : (ascii "/api/events").length = 11 := by decide
  rw [baseUrl.length_eq] at shorter
  rw [List.length_append]
  omega

theorem Performed.Posts.request {performed : Performed} {baseUrl : CharArray 512}
    {ev : AuditEvent} (posts : performed.Posts baseUrl ev) :
    performed.options.url = some (postEventRequest ⟨true, baseUrl⟩ ev).url ∧
      ∃ json ∈ performed.options.postFields, ∃ text,
        performed.memory.objects json = some (.chars text) ∧
          text.take performed.options.postFieldSize.toNat =
            (postEventRequest ⟨true, baseUrl⟩ ev).body := by
  rw [posts.url, ← eventsUrl_fits]
  simpa only [postEventRequest, true_and] using posts.body

section Transfers

variable {libcurl : Libcurl} {state : HttpState libcurl} {curl : libcurl.Handle}

theorem postEvent_performs (documented : libcurl.Documented) (handle : state.curl = some curl)
    (ev : AuditEvent) (appended : Bool) {block : Option (Block 1024)}
    (allocated : startable block = true) :
    ∃ next performed, postEventOnHandle state ev appended block = some (next, [performed]) ∧
      next.curl.isSome ∧ next.baseUrl = state.baseUrl ∧ performed.Posts state.baseUrl ev ∧
      performed.RefersToLive := by
  have starts : (startBuffer block).isSome := by rw [startBuffer_isSome, allocated]
  obtain ⟨started, starts⟩ := Option.isSome_iff_exists.mp starts
  simp only [postEventOnHandle, handle, starts, Option.bind_eq_bind, Option.bind_some]
  refine ⟨_, _, rfl, rfl, rfl, ?_, ?_⟩
  · simp only [documented.sets, EasyOptions.set]
    refine ⟨rfl, congrArg some (eventsUrl_fits state.baseUrl), _, rfl, ?_⟩
    refine ⟨cString (auditEventToJson ev jsonEventMax), create_keeps ?_ _, ?_⟩
    · cases appended
      · exact create_objects _
      · exact create_keeps (create_objects _) _
    · rw [Int.toNat_natCast, strlen_cString (auditEventToJson_nulFree ev), cString,
        List.take_left]
  · simp only [documented.sets, EasyOptions.set]
    intro ref member
    cases appended
    · simp only [EasyOptions.refs, Bool.false_eq_true, ↓reduceIte, Option.toList_some,
        Option.toList_none, List.append_nil, List.cons_append, List.nil_append, List.mem_cons,
        List.not_mem_nil, or_false] at member
      rcases member with rfl | rfl
      · exact (create_live _).create _
      · exact create_live _
    · simp only [EasyOptions.refs, ↓reduceIte, Option.toList_some, List.cons_append,
        List.nil_append, List.mem_cons, List.not_mem_nil, or_false] at member
      rcases member with rfl | rfl | rfl
      · exact ((create_live _).create _).create _
      · exact (create_live _).create _
      · exact create_live _

/-- `POSTFIELDS` behind `HTTPGET` makes every get a POST. -/
theorem get_performs (documented : libcurl.Documented) (handle : state.curl = some curl)
    (endpoint : Bytes) {respSize : Nat} {block : Option (Block respSize)}
    (allocated : startable block = true) :
    ∃ next performed, getOnHandle state endpoint block = some (next, [performed]) ∧
      next.curl.isSome ∧ next.baseUrl = state.baseUrl ∧ performed.options.method = .post := by
  have starts : (startBuffer block).isSome := by rw [startBuffer_isSome, allocated]
  obtain ⟨started, starts⟩ := Option.isSome_iff_exists.mp starts
  simp only [getOnHandle, handle, starts, Option.bind_eq_bind, Option.bind_some]
  refine ⟨_, _, rfl, rfl, rfl, ?_⟩
  simp only [documented.sets, EasyOptions.set]

theorem call_refused (handle : state.curl = some curl) {call : HttpCall}
    (refused : call.allocated = false) : call.run state = none := by
  cases call with
  | postEvent ev appended block =>
      have none : startBuffer block = none := by
        rw [← Option.not_isSome_iff_eq_none, startBuffer_isSome, Bool.not_eq_true]
        exact refused
      simp only [HttpCall.run, postEventOnHandle, handle, none, Option.bind_eq_bind,
        Option.bind_none]
  | get endpoint block =>
      have none : startBuffer block = none := by
        rw [← Option.not_isSome_iff_eq_none, startBuffer_isSome, Bool.not_eq_true]
        exact refused
      simp only [HttpCall.run, getOnHandle, handle, none, Option.bind_eq_bind, Option.bind_none]

theorem call_performs (documented : libcurl.Documented) (handle : state.curl.isSome)
    {call : HttpCall} (allocated : call.allocated = true) :
    ∃ next performed, call.run state = some (next, [performed]) ∧ next.curl.isSome ∧
      next.baseUrl = state.baseUrl ∧
      (call.Performs state.baseUrl performed ∧ performed.RefersToLive ↔ call.isGet = false) := by
  obtain ⟨curl, handle⟩ := Option.isSome_iff_exists.mp handle
  cases call with
  | postEvent ev appended block =>
      obtain ⟨next, performed, ran, still, same, posts, live⟩ :=
        postEvent_performs documented handle ev appended allocated
      exact ⟨next, performed, ran, still, same, iff_of_true ⟨posts, live⟩ rfl⟩
  | get endpoint block =>
      obtain ⟨next, performed, ran, still, same, method⟩ :=
        get_performs documented handle endpoint allocated
      refine ⟨next, performed, ran, still, same, iff_of_false ?_ Bool.noConfusion⟩
      rintro ⟨gets, _⟩
      exact absurd (method.symm.trans gets.method) (by decide)

theorem transfers_withoutHandle (handle : state.curl = none) (calls : List HttpCall) :
    transfers state calls = [] := by
  induction calls with
  | nil => rfl
  | cons call rest ih =>
      have nothing : call.run state = some (state, []) := by
        cases call <;> simp [HttpCall.run, postEventOnHandle, getOnHandle, handle]
      rw [transfers, nothing]
      exact ih

/-- The calls that come to their transfer, unless the handle is missing. -/
def reaching (calls : List HttpCall) : List HttpCall := calls.takeWhile HttpCall.allocated

theorem transfers_right_iff (documented : libcurl.Documented) (calls : List HttpCall) :
    ∀ state : HttpState libcurl, state.curl.isSome →
      (AllSetUpRight state calls ↔ ∀ call ∈ reaching calls, call.isGet = false) := by
  induction calls with
  | nil => simp [AllSetUpRight, transfers, reaching]
  | cons call rest ih =>
      intro state handle
      cases allocated : call.allocated with
      | false =>
          obtain ⟨curl, handle⟩ := Option.isSome_iff_exists.mp handle
          simp [AllSetUpRight, transfers, reaching, call_refused handle allocated, allocated]
      | true =>
          obtain ⟨next, performed, ran, still, same, right⟩ :=
            call_performs documented handle allocated
          have later := ih next still
          rw [AllSetUpRight, same] at later
          rw [AllSetUpRight, transfers, ran, reaching, List.takeWhile_cons_of_pos allocated,
            List.forall_mem_cons, ← right]
          simp only [List.map_cons, List.map_nil, List.cons_append, List.nil_append,
            List.forall_mem_cons]
          exact and_congr_right fun _ => later

end Transfers

/-! The header list of the last post is freed and stays set. -/

def StaleHeader {libcurl : Libcurl} (state : HttpState libcurl) : Prop :=
  ∃ curl ∈ state.curl, ∃ list ∈ (libcurl.options curl).httpHeader,
    list < state.memory.next ∧ ¬state.memory.Live list

section StaleHeader

variable {libcurl : Libcurl} {state next : HttpState libcurl} {performed : List Performed}

theorem postEvent_leaves (documented : libcurl.Documented) (handle : state.curl.isSome)
    {ev : AuditEvent} {block : Option (Block 1024)}
    (ran : postEventOnHandle state ev true block = some (next, performed)) : StaleHeader next := by
  obtain ⟨curl, handle⟩ := Option.isSome_iff_exists.mp handle
  simp only [postEventOnHandle, handle, Option.bind_eq_bind, Option.bind_eq_some_iff] at ran
  obtain ⟨started, _, returned⟩ := ran
  obtain ⟨rfl, rfl⟩ := Prod.mk.inj (Option.some.inj returned)
  refine ⟨_, rfl, state.memory.next + 1, ?_, ?_, ?_⟩
  · simp only [documented.persists, documented.sets, EasyOptions.set]
    rfl
  · simp [Memory.discard, Memory.create]
  · exact discard_keepsDead (discard_keepsDead discard_dead)

theorem get_keepsStale (documented : libcurl.Documented) (stale : StaleHeader state)
    {endpoint : Bytes} {respSize : Nat} {block : Option (Block respSize)}
    (ran : getOnHandle state endpoint block = some (next, performed)) :
    StaleHeader next ∧ ∀ transfer ∈ performed, ¬transfer.RefersToLive := by
  obtain ⟨curl, handle, list, here, used, dead⟩ := stale
  rw [Option.mem_def] at handle
  simp only [getOnHandle, handle, Option.bind_eq_bind, Option.bind_eq_some_iff] at ran
  obtain ⟨started, _, returned⟩ := ran
  obtain ⟨rfl, rfl⟩ := Prod.mk.inj (Option.some.inj returned)
  have stillDead : ¬(state.memory.create (.writeBuf started)).Live list := create_dead dead used
  refine ⟨⟨_, rfl, list, ?_, ?_, ?_⟩, ?_⟩
  · simp only [documented.persists, documented.sets, EasyOptions.set]
    exact here
  · exact Nat.lt_succ_of_lt used
  · exact discard_keepsDead stillDead
  · intro transfer member live
    obtain rfl := List.mem_singleton.mp member
    refine stillDead (live list ?_)
    simp only [documented.sets, EasyOptions.set, EasyOptions.refs, Option.mem_def.mp here]
    simp

theorem gets_dangle (documented : libcurl.Documented) (calls : List HttpCall)
    (gets : ∀ call ∈ calls, call.isGet = true) : ∀ {state : HttpState libcurl}, StaleHeader state →
      ∀ entry ∈ transfers state calls, ¬entry.2.RefersToLive := by
  induction calls with
  | nil => simp [transfers]
  | cons call rest ih =>
      intro state stale entry member
      cases call with
      | postEvent ev appended block =>
          have isGet := gets (.postEvent ev appended block) (by simp)
          simp [HttpCall.isGet] at isGet
      | get endpoint block =>
          cases ran : getOnHandle state endpoint block with
          | none => simp [transfers, HttpCall.run, ran] at member
          | some outcome =>
              obtain ⟨next, performed⟩ := outcome
              obtain ⟨stillStale, dangles⟩ := get_keepsStale documented stale ran
              simp only [transfers, HttpCall.run, ran, List.mem_append, List.mem_map] at member
              rcases member with ⟨transfer, here, rfl⟩ | later
              · exact dangles transfer here
              · exact ih (fun call inside => gets call (by simp [inside])) stillStale entry later

theorem postedHeader_dangles (documented : libcurl.Documented) (handle : state.curl.isSome)
    (ev : AuditEvent) {block : Option (Block 1024)} (allocated : startable block = true)
    {calls : List HttpCall} (gets : ∀ call ∈ calls, call.isGet = true) :
    ∀ entry ∈ (transfers state (.postEvent ev true block :: calls)).tail,
      ¬entry.2.RefersToLive := by
  obtain ⟨curl, points⟩ := Option.isSome_iff_exists.mp handle
  obtain ⟨next, performed, ran, _⟩ := postEvent_performs documented points ev true allocated
  have stale := postEvent_leaves documented handle ran
  have split : transfers state (.postEvent ev true block :: calls) =
      (.postEvent ev true block, performed) :: transfers next calls := by
    simp [transfers, HttpCall.run, ran]
  rw [split, List.tail_cons]
  exact gets_dangle documented calls gets stale

end StaleHeader

theorem httpClientInit_completes {libcurl : Libcurl} (easyInit : Option libcurl.Handle)
    (gatewayUrl : Option Bytes) : ∃ rc state, httpClientInit easyInit gatewayUrl = some (rc, state) ∧
      state.curl.isSome = easyInit.isSome := by
  obtain ⟨baseUrl, copied, _⟩ := strncpy_cells (.zero : CharArray 512)
    (cString (gatewayUrl.getD (ascii "http://localhost:8443"))) (by decide : 512 - 1 ≤ 512)
  simp only [httpClientInit, copied, Option.bind_eq_bind, Option.bind_some]
  cases easyInit with
  | none => exact ⟨_, _, rfl, rfl⟩
  | some curl => exact ⟨_, _, rfl, rfl⟩

theorem handle_setUp_iff {libcurl : Libcurl} (documented : libcurl.Documented)
    (easyInit : Option libcurl.Handle) (gatewayUrl : Option Bytes) (calls : List HttpCall) :
    ∃ rc state, httpClientInit easyInit gatewayUrl = some (rc, state) ∧
      (AllSetUpRight state calls ↔
        easyInit = none ∨ ∀ call ∈ reaching calls, call.isGet = false) := by
  obtain ⟨rc, state, initialised, handle⟩ := httpClientInit_completes easyInit gatewayUrl
  refine ⟨rc, state, initialised, ?_⟩
  cases easyInit with
  | none =>
      have missing : state.curl = none := by simpa using handle
      simp [AllSetUpRight, transfers_withoutHandle missing]
  | some curl =>
      rw [transfers_right_iff documented calls state handle]
      simp

def plainOptions : EasyOptions where
  timeout := 0
  connectTimeout := 300
  userAgent := none
  url := none
  method := .get
  postFields := none
  postFieldSize := -1
  httpHeader := none
  writesBack := false
  writeData := none

def plainCurl : Libcurl where
  Handle := EasyOptions
  setopt := EasyOptions.set
  perform := id
  options := id

theorem plainCurl_documented : plainCurl.Documented := ⟨fun _ _ => rfl, fun _ => rfl⟩

def plainHandle : Option plainCurl.Handle := some plainOptions

def eventCall : HttpCall := .postEvent .zero true (some ⟨1024, .zero, le_rfl⟩)

def statusBlock : Option (Block 8192) := some ⟨8192, .zero, le_rfl⟩

def statusCall : HttpCall := .get (ascii "/api/status") statusBlock

theorem events_setUp_iff : ∃ rc state, httpClientInit plainHandle none = some (rc, state) ∧
    (AllSetUpRight state [eventCall, eventCall] ↔ plainHandle = none ∨
      ∀ call ∈ reaching [eventCall, eventCall], call.isGet = false) :=
  handle_setUp_iff plainCurl_documented _ _ _

theorem statusCall_posts : ¬∀ calls rc state,
    httpClientInit plainHandle none = some (rc, state) → AllSetUpRight state calls := by
  intro right
  obtain ⟨rc, state, initialised, handle⟩ := httpClientInit_completes plainHandle none
  obtain ⟨curl, handle⟩ := Option.isSome_iff_exists.mp handle
  have given : startable statusBlock = true := (startable_iff (by decide) _).mpr rfl
  obtain ⟨next, performed, ran, _, _, method⟩ :=
    get_performs plainCurl_documented handle (ascii "/api/status") given
  have entry : (statusCall, performed) ∈ transfers state [statusCall] := by
    simp [transfers, HttpCall.run, statusCall, ran]
  have gets := (right [statusCall] rc state initialised _ entry).1
  exact absurd (method.symm.trans gets.method) (by decide)

end BlockchainAuditor
