import BlockchainAuditor.HttpGet

/-! What `write_cb` accumulates over the calls of one transfer, each with its own answer of
`realloc`. -/

namespace BlockchainAuditor

open CStrings CharArray

structure WriteCall where
  heap : Heap
  chunk : Bytes

def WriteCall.refused (call : WriteCall) (buf : WriteBuf) : Bool :=
  !decide (buf.len + call.chunk.length < buf.cap) &&
    (call.heap.realloc (buf.len + call.chunk.length + 4096)).isNone

structure WriteStep where
  call : WriteCall
  before : WriteBuf
  returned : Nat
  after : WriteBuf

def WriteStep.refused (step : WriteStep) : Bool := step.call.refused step.before

/-- The calls up to the first that is refused; nothing when one of them makes an access outside
the block. -/
def writeSteps : List WriteCall → WriteBuf → Option (List WriteStep)
  | [], _ => some []
  | call :: rest, buf => do
    let (returned, after) ← writeCb call.heap call.chunk buf
    let later ← if call.refused buf then pure [] else writeSteps rest after
    return ⟨call, buf, returned, after⟩ :: later

structure WriteStep.Exact (step : WriteStep) (received : Bytes) : Prop where
  taken : step.refused = false → step.returned = step.call.chunk.length ∧
    step.after.Holds (received ++ step.call.chunk)
  kept : step.refused = true → step.returned = 0 ∧ (∃ cap, step.after = { step.before with cap }) ∧
    step.after.len = received.length ∧ received <+: step.after.data.cells

theorem refused_iff_none {call : WriteCall} {buf : WriteBuf} : call.refused buf = true ↔
    ¬buf.len + call.chunk.length < buf.cap ∧
      call.heap.realloc (buf.len + call.chunk.length + 4096) = none := by
  simp [WriteCall.refused]

theorem writeCb_exact {buf : WriteBuf} {received : Bytes} (accumulates : buf.Accumulates received)
    (call : WriteCall) : Completes (writeCb call.heap call.chunk buf) fun result =>
      WriteStep.Exact ⟨call, buf, result.1, result.2⟩ received := by
  refine (writeCb_completes accumulates call.chunk).mono fun result outcome => ?_
  rcases outcome with ⟨counted, holds, grown⟩ | ⟨returned, full, refused⟩
  · have granted : call.refused buf = false := by
      rw [← Bool.not_eq_true, refused_iff_none]
      rintro ⟨full, refused⟩
      rcases grown with ⟨fits, _⟩ | ⟨_, given, _⟩
      · exact full fits
      · simp [refused] at given
    exact ⟨fun _ => ⟨counted, holds⟩, fun refused => absurd (granted.symm.trans refused) (by decide)⟩
  · refine ⟨fun granted => ?_, fun _ => ?_⟩
    · have isRefused : call.refused buf = true := refused_iff_none.mpr ⟨full, refused⟩
      exact absurd granted (by simp [WriteStep.refused, isRefused])
    · subst returned
      exact ⟨rfl, ⟨_, rfl⟩, accumulates.len, accumulates.cells⟩

def takenBy (calls : List WriteCall) : Bytes := calls.flatMap WriteCall.chunk

/-- The steps are those of the calls, all of them unless the last step is refused. -/
structure StepsOf (calls : List WriteCall) (steps : List WriteStep) : Prop where
  inOrder : steps.map WriteStep.call <+: calls
  whole : steps.length < calls.length → ∃ step ∈ steps.getLast?, step.refused = true

theorem stepsOf_refused {call : WriteCall} {rest : List WriteCall} {step : WriteStep}
    (same : step.call = call) (refused : step.refused = true) : StepsOf (call :: rest) [step] := by
  refine ⟨?_, fun _ => ⟨step, rfl, refused⟩⟩
  rw [List.map_singleton, same]
  exact ⟨rest, rfl⟩

theorem StepsOf.cons {rest : List WriteCall} {steps : List WriteStep} (stepsOf : StepsOf rest steps)
    (step : WriteStep) : StepsOf (step.call :: rest) (step :: steps) := by
  refine ⟨?_, fun shorter => ?_⟩
  · rw [List.map_cons]
    exact (List.prefix_cons_inj _).mpr stepsOf.inOrder
  · obtain ⟨last, isLast, refused⟩ := stepsOf.whole (by simpa using shorter)
    refine ⟨last, ?_, refused⟩
    rw [Option.mem_def] at isLast ⊢
    rw [List.getLast?_cons, isLast, Option.getD_some]

theorem writeSteps_exact (calls : List WriteCall) : ∀ {buf : WriteBuf} {received : Bytes},
    buf.Accumulates received → Completes (writeSteps calls buf) fun steps =>
      StepsOf calls steps ∧ ∀ (index : Nat) (step : WriteStep), steps[index]? = some step →
        step.Exact (received ++ takenBy (calls.take index)) := by
  induction calls with
  | nil =>
      intro buf received _
      exact completes_some ⟨⟨List.nil_prefix, by simp⟩, by simp⟩
  | cons call rest ih =>
      intro buf received accumulates
      refine (writeCb_exact accumulates call).bind fun result exact => ?_
      obtain ⟨returned, after⟩ := result
      dsimp only at exact ⊢
      have first : WriteStep.Exact ⟨call, buf, returned, after⟩ (received ++ takenBy []) := by
        simpa [takenBy] using exact
      cases refused : call.refused buf with
      | true =>
          refine completes_some ⟨stepsOf_refused rfl refused, ?_⟩
          intro index step here
          cases index with
          | zero =>
              obtain rfl := Option.some.inj here
              exact first
          | succ index => simp at here
      | false =>
          have holds := (exact.taken refused).2
          refine (ih holds.accumulates).bind fun steps later => completes_pure ?_
          refine ⟨later.1.cons ⟨call, buf, returned, after⟩, ?_⟩
          intro index step here
          cases index with
          | zero =>
              obtain rfl := Option.some.inj here
              exact first
          | succ index =>
              have exactLater := later.2 index step here
              rw [List.append_assoc] at exactLater
              exact exactLater

/-- From an empty buffer of any capacity. -/
theorem response_accumulates {cap : Nat} (block : CharArray cap) (calls : List WriteCall) :
    ∃ steps, writeSteps calls ⟨cap, block, 0, cap⟩ = some steps ∧ StepsOf calls steps ∧
      ∀ (index : Nat) (step : WriteStep), steps[index]? = some step →
        step.Exact (takenBy (calls.take index)) := by
  have empty : WriteBuf.Accumulates ⟨cap, block, 0, cap⟩ [] := ⟨rfl, rfl, List.nil_prefix⟩
  have writes : Completes (writeSteps calls ⟨cap, block, 0, cap⟩) _ := writeSteps_exact calls empty
  obtain ⟨steps, written, stepsOf, exact⟩ := writes
  exact ⟨steps, written, stepsOf, exact⟩

/-! In `receive` every call has the same allocator. It gives up with the refused call, which
returns less than its chunk, unless the chunk is empty. -/

theorem refused_nonempty {heap : Heap} {buf : WriteBuf} {received chunk : Bytes}
    (holds : buf.Holds received) (refused : WriteCall.refused ⟨heap, chunk⟩ buf = true) :
    0 < chunk.length := by
  have full : ¬buf.len + chunk.length < buf.cap := (refused_iff_none.mp refused).1
  have cap := holds.cap
  have len := holds.len
  have room := holds.room
  omega

theorem receive_steps {heap : Heap} (chunks : List Bytes) :
    ∀ {buf : WriteBuf} {received : Bytes}, buf.Holds received →
      ∃ steps, writeSteps (chunks.map (WriteCall.mk heap)) buf = some steps ∧
        receive heap chunks buf = some (steps.all fun step => !step.refused,
          (steps.getLast?.map WriteStep.after).getD buf) := by
  induction chunks with
  | nil => exact fun _ => ⟨[], rfl, rfl⟩
  | cons chunk rest ih =>
      intro buf received holds
      have writes : Completes (writeCb heap chunk buf) _ :=
        writeCb_exact holds.accumulates ⟨heap, chunk⟩
      obtain ⟨⟨returned, after⟩, written, exact⟩ := writes
      simp only [List.map_cons, writeSteps, receive, written, Option.bind_eq_bind, Option.bind_some]
      cases refused : WriteCall.refused ⟨heap, chunk⟩ buf with
      | true =>
          have zero : returned = 0 := (exact.kept refused).1
          have positive := refused_nonempty holds refused
          refine ⟨_, rfl, ?_⟩
          rw [if_neg (by omega)]
          simp [WriteStep.refused, refused]
      | false =>
          obtain ⟨counted, nextHolds⟩ := exact.taken refused
          obtain ⟨steps, stepped, received⟩ := ih nextHolds
          refine ⟨⟨⟨heap, chunk⟩, buf, returned, after⟩ :: steps, ?_, ?_⟩
          · simp [stepped]
          · have counted : returned = chunk.length := counted
            rw [if_pos counted, received, List.all_cons, List.getLast?_cons]
            cases steps.getLast? <;> simp [WriteStep.refused, refused]

/-- A block of no bytes, an empty chunk without memory for it, and the next chunk is copied
behind the block: `cap` was raised all the same. -/
theorem emptyChunk_unnoticed {heap : Heap} (refused : heap.realloc 4096 = none)
    (block : CharArray 0) {chunk : Bytes} (nonempty : chunk ≠ []) (short : chunk.length < 4096) :
    receive heap [[], chunk] ⟨0, block, 0, 0⟩ = none := by
  have positive := List.length_pos_iff.mpr nonempty
  have first : writeCb heap [] ⟨0, block, 0, 0⟩ = some (0, ⟨0, block, 0, 4096⟩) := by
    simp [writeCb, Heap.resize, refused]
  have second : writeCb heap chunk ⟨0, block, 0, 4096⟩ = none := by
    have outside : block.overwrite 0 chunk = none := dif_neg (by omega)
    rw [writeCb, if_pos (by simpa using short)]
    simp [WriteBuf.append, outside]
  simp [receive, first, second]

/-! The `size_t` arithmetic: it does not wrap around, since the block and the chunk are both in
memory, apart from each other and from the first page. -/

def sizeT (exact : Nat) : Nat := exact % 2 ^ 64

def WriteBuf.copy (buf : WriteBuf) (ptr : Bytes) (total : Nat) : Option (Nat × WriteBuf) :=
  if ptr.length < total then none else buf.append (ptr.take total)

def writeCbSized (heap : Heap) (ptr : Bytes) (size nmemb : Nat) (buf : WriteBuf) :
    Option (Nat × WriteBuf) :=
  let total := sizeT (size * nmemb)
  if sizeT (buf.len + total) < buf.cap then buf.copy ptr total
  else
    let cap := sizeT (buf.len + total + 4096)
    match heap.resize buf.data cap with
    | none => some (0, { buf with cap })
    | some data => WriteBuf.copy { size := cap, data, len := buf.len, cap } ptr total

def pageSize : Nat := 4096

/-- `data` and `ptr` are the addresses of the block and of the chunk. -/
structure InMemory (buf : WriteBuf) (chunk : Bytes) (data ptr : Nat) : Prop where
  atData : pageSize ≤ data ∧ data + buf.size < 2 ^ 64
  atPtr : pageSize ≤ ptr ∧ ptr + chunk.length < 2 ^ 64
  apart : data + buf.size ≤ ptr ∨ ptr + chunk.length ≤ data

theorem copy_all (buf : WriteBuf) (ptr : Bytes) : buf.copy ptr ptr.length = buf.append ptr := by
  rw [WriteBuf.copy, if_neg (Nat.lt_irrefl _), List.take_length]

theorem writeCbSized_eq (heap : Heap) {buf : WriteBuf} {chunk received : Bytes}
    {size nmemb data ptr : Nat} (accumulates : buf.Accumulates received)
    (inMemory : InMemory buf chunk data ptr) (product : size * nmemb = chunk.length) :
    writeCbSized heap chunk size nmemb buf = writeCb heap chunk buf := by
  have inside : buf.len ≤ buf.size := by
    have length := accumulates.cells.length_le
    rwa [buf.data.length_eq, ← accumulates.len] at length
  have small : buf.len + chunk.length + 4096 < 2 ^ 64 := by
    obtain ⟨atData, atPtr, apart⟩ := inMemory
    rw [pageSize] at atData atPtr
    omega
  have total : sizeT (size * nmemb) = chunk.length := by
    rw [product]
    exact Nat.mod_eq_of_lt (by omega)
  have filled : sizeT (buf.len + chunk.length) = buf.len + chunk.length :=
    Nat.mod_eq_of_lt (by omega)
  have grown : sizeT (buf.len + chunk.length + 4096) = buf.len + chunk.length + 4096 :=
    Nat.mod_eq_of_lt small
  rw [writeCbSized, writeCb]
  dsimp only
  rw [total, filled, grown, copy_all]
  by_cases fits : buf.len + chunk.length < buf.cap
  · rw [if_pos fits, if_pos fits]
  · rw [if_neg fits, if_neg fits]
    cases heap.resize buf.data (buf.len + chunk.length + 4096) with
    | none => rfl
    | some data => exact copy_all _ chunk

end BlockchainAuditor
