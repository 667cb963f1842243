import BlockchainAuditor.AuditEvent

/-! The delivery of one event: `http_client_post_event` and the retry loop of
`worker_thread`. libcurl and the network are a function from requests to outcomes. -/

namespace BlockchainAuditor

open CStrings

def curleOk : Nat := 0

inductive Exchange
  | transportFailure (code : Nat) (isError : code ≠ curleOk)
  | completed (status : Nat)

/-- Without `CURLOPT_FAILONERROR` every answer is `CURLE_OK`. -/
def curlEasyPerform : Exchange → Nat
  | .transportFailure code _ => code
  | .completed _ => curleOk

structure HttpRequest where
  url : Bytes
  header : Bytes
  body : Bytes

/-- The static variables of `http_client.c`; `curl` tells whether the handle exists. -/
structure HttpClient where
  curl : Bool
  baseUrl : CharArray 512

def postEventRequest (client : HttpClient) (ev : AuditEvent) : HttpRequest where
  url := snprintf 1024 (client.baseUrl.str ++ ascii "/api/events")
  header := ascii "Content-Type: application/json"
  body := auditEventToJson ev jsonEventMax

abbrev Network := HttpRequest → Exchange

def httpClientPostEvent (client : HttpClient) (network : Network) (ev : AuditEvent) : Int :=
  if client.curl = false then -1
  else if curlEasyPerform (network (postEventRequest client ev)) ≠ curleOk then -1
  else 0

def retriesMax : Nat := 3

def retriesAfter (rc : Int) (retries : Nat) : Nat := if rc = 0 then 0 else retries - 1

/-- The number of attempts the loop has made when it ends, `made` of them before. The
network may answer each attempt differently. -/
def deliverEvent (client : HttpClient) (networks : Nat → Network) (ev : AuditEvent) :
    Nat → Nat → Nat
  | 0, made => made
  | retries + 1, made =>
    if httpClientPostEvent client (networks made) ev = 0 then made + 1
    else deliverEvent client networks ev retries (made + 1)

def answer (client : HttpClient) (network : Network) (ev : AuditEvent) : Option Nat :=
  if client.curl = false then none
  else match network (postEventRequest client ev) with
    | .transportFailure _ _ => none
    | .completed status => some status

theorem httpClientPostEvent_eq (client : HttpClient) (network : Network) (ev : AuditEvent) :
    httpClientPostEvent client network ev = 0 ↔ (answer client network ev).isSome = true := by
  unfold httpClientPostEvent answer
  by_cases handle : client.curl = false
  · simp [handle]
  · rw [if_neg handle, if_neg handle]
    cases network (postEventRequest client ev) with
    | transportFailure code isError => simp [curlEasyPerform, isError]
    | completed status => simp [curlEasyPerform]

theorem deliverEvent_step (client : HttpClient) (networks : Nat → Network) (ev : AuditEvent)
    (retries made : Nat) :
    deliverEvent client networks ev (retries + 1) made =
      if (answer client (networks made) ev).isSome = true then made + 1
      else deliverEvent client networks ev retries (made + 1) := by
  rw [deliverEvent]
  simp only [httpClientPostEvent_eq]

theorem deliverEvent_bounds (client : HttpClient) (networks : Nat → Network) (ev : AuditEvent) :
    ∀ retries made, made < deliverEvent client networks ev (retries + 1) made ∧
      deliverEvent client networks ev (retries + 1) made ≤ made + retries + 1 := by
  intro retries
  induction retries with
  | zero =>
      intro made
      rw [deliverEvent_step]
      split <;> simp [deliverEvent]
  | succ retries ih =>
      intro made
      rw [deliverEvent_step]
      split
      · omega
      · have rest := ih (made + 1)
        omega

theorem deliverEvent_acknowledged_iff (client : HttpClient) (networks : Nat → Network)
    (ev : AuditEvent) :
    (∀ last, deliverEvent client networks ev retriesMax 0 = last + 1 → last + 1 < retriesMax →
        answer client (networks last) ev = some 201) ↔
      ∀ status, (answer client (networks 0) ev <|> answer client (networks 1) ev) = some status →
        status = 201 := by
  have third := deliverEvent_bounds client networks ev 0 2
  simp only [retriesMax, deliverEvent_step client networks ev 2 0,
    deliverEvent_step client networks ev 1 1]
  cases first : answer client (networks 0) ev with
  | some status =>
      constructor
      · intro acknowledged other found
        have atFirst := acknowledged 0 (by simp) (by decide)
        rw [first] at atFirst
        obtain rfl : status = other := Option.some.inj found
        exact Option.some.inj atFirst
      · intro onlyCreated last stopped _
        obtain rfl : last = 0 := by simpa using stopped.symm
        rw [first, onlyCreated status rfl]
  | none =>
      cases second : answer client (networks 1) ev with
      | some status =>
          constructor
          · intro acknowledged other found
            have atSecond := acknowledged 1 (by simp) (by decide)
            rw [second] at atSecond
            obtain rfl : status = other := Option.some.inj found
            exact Option.some.inj atSecond
          · intro onlyCreated last stopped _
            obtain rfl : last = 1 := by simpa using stopped.symm
            rw [second, onlyCreated status rfl]
      | none =>
          constructor
          · intro _ status found
            simp at found
          · intro _ last stopped early
            simp only [Option.isSome_none, Bool.false_eq_true, if_false] at stopped
            rw [stopped] at third
            omega

theorem unprocessable_dropped :
    ¬∀ last, deliverEvent ⟨true, .zero⟩ (fun _ _ => .completed 422) .zero retriesMax 0 = last + 1 →
      last + 1 < retriesMax →
        answer ⟨true, .zero⟩ (fun _ => .completed 422) .zero = some 201 := by
  intro acknowledged
  have first := acknowledged 0 (by rw [retriesMax, deliverEvent_step]; rfl) (by decide)
  simp [answer] at first

end BlockchainAuditor
