import BlockchainAuditor.IntegrityCheck
import BlockchainAuditor.LocalLog

/-! The two renderings of an event, the one that is hashed and the one that is logged, and
the three buffers of 8192 bytes they pass through. -/

namespace BlockchainAuditor

open CStrings KeyedText LineReader

/-- The string in `buf` that `audit_event_compute_hash` passes to `sha256_hash`. -/
def hashedString (ev : AuditEvent) : Bytes := snprintf jsonEventMax (hashText ev)

theorem jsonText_body (ev : AuditEvent) :
    ∃ body, hashText ev = body ++ [closeBrace] ∧
      jsonText ev = body ++ ascii ",\"hash\":\"" ++ ev.hash.str ++ ascii "\"" ++ [closeBrace] := by
  have items : recordItems ev = (recordItems ev).take 7 ++ [(ascii "hash", .quoted ev.hash.str)] :=
    rfl
  obtain ⟨body, closed, appended⟩ := recordText_append
    (ascii "event_type", .quoted ev.eventType.str) (((recordItems ev).take 7).drop 1)
  refine ⟨body, (hashText_eq ev).trans closed, ?_⟩
  have hashItem : comma :: itemText (ascii "hash", .quoted ev.hash.str) =
      ascii ",\"hash\":\"" ++ ev.hash.str ++ ascii "\"" := by
    simp only [itemText, List.append_assoc]
    rfl
  calc jsonText ev = recordText ((recordItems ev).take 7 ++ [(ascii "hash", .quoted ev.hash.str)]) :=
        (jsonText_eq ev).trans (congrArg recordText items)
    _ = body ++ comma :: itemText (ascii "hash", .quoted ev.hash.str) ++ [closeBrace] := appended _
    _ = _ := by rw [hashItem]; simp only [List.append_assoc]

theorem hashText_nulFree (ev : AuditEvent) : (0 : UInt8) ∉ hashText ev := by
  obtain ⟨body, hashed, rendered⟩ := jsonText_body ev
  have nulFree := recordItems_nulFree ev
  rw [← jsonText_eq, rendered] at nulFree
  rw [hashed, List.mem_append]
  intro member
  exact nulFree (List.mem_append.mpr (member.imp_left fun inside => by simp [inside]))

theorem renderings_agree {ev : AuditEvent} (terminated : ev.Terminated) :
    (∀ sha256, auditEventComputeHash sha256 ev =
      { ev with hash := sha256Hash sha256 (hashedString ev) }) ∧
    (0 : UInt8) ∉ hashedString ev ∧
    (∃ body, hashedString ev = body ++ [closeBrace] ∧
      auditEventToJson ev jsonEventMax =
        body ++ ascii ",\"hash\":\"" ++ ev.hash.str ++ ascii "\"" ++ [closeBrace]) ∧
    hashedString ev = hashText ev ∧ (hashText ev).length < jsonEventMax ∧
    auditEventToJson ev jsonEventMax = jsonText ev ∧ (jsonText ev).length < jsonEventMax ∧
    (auditEventToJson ev jsonEventMax ++ [newline]).length < lineBufferSize ∧
    ∀ rest, (newline ∉ auditEventToJson ev jsonEventMax →
        fgets lineBufferSize (auditEventToJson ev jsonEventMax ++ newline :: rest) =
          some (auditEventToJson ev jsonEventMax ++ [newline], rest)) ∧
      ∀ larger, lineBufferSize ≤ larger →
        fgets larger (auditEventToJson ev jsonEventMax ++ newline :: rest) =
          fgets lineBufferSize (auditEventToJson ev jsonEventMax ++ newline :: rest) := by
  have length := jsonText_length terminated
  have hashed : hashedString ev = hashText ev := snprintf_fits (hashText_length terminated)
  have rendered : auditEventToJson ev jsonEventMax = jsonText ev := snprintf_fits (by omega)
  have fits : (jsonText ev).length < lineBufferSize - 1 := by
    simp only [lineBufferSize, jsonEventMax] at length ⊢
    omega
  obtain ⟨body, hashBody, jsonBody⟩ := jsonText_body ev
  rw [hashed, rendered]
  refine ⟨fun sha256 => by rw [← hashed]; rfl, hashText_nulFree ev, ⟨body, hashBody, jsonBody⟩, rfl,
    hashText_length terminated, rfl, by omega, by simp; omega, fun rest => ⟨?_, ?_⟩⟩
  · intro plain
    rw [fgets, if_neg (by simp), takeLine_whole rest plain fits]
  · intro larger atLeast
    rw [fgets, fgets, if_neg (by simp), if_neg (by simp),
      takeLine_room (by omega : lineBufferSize - 1 ≤ larger - 1) rest fits]

theorem execve_renderings :
    (execveEvent (ascii "ls")).Terminated ∧
    ∃ body, hashedString (execveEvent (ascii "ls")) = body ++ [closeBrace] ∧
      auditEventToJson (execveEvent (ascii "ls")) jsonEventMax =
        body ++ ascii ",\"hash\":\"" ++ (execveEvent (ascii "ls")).hash.str ++ ascii "\"" ++
          [closeBrace] :=
  ⟨execveEvent_terminated (by decide), (renderings_agree (execveEvent_terminated (by decide))).2.2.1⟩

end BlockchainAuditor
