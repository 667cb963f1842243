import BlockchainAuditor.EventDelivery
import BlockchainAuditor.Library.CArrays

/-! The receive buffer of `http_client.c`: `write_cb`, which grows it, and `http_client_get`,
which copies it to the array of its caller. -/

namespace BlockchainAuditor

open CStrings CharArray

/-- The blocks that the allocator gives, with what they happen to hold: for `malloc`, and
behind the bytes that `realloc` copies. -/
structure Heap where
  malloc : (size : Nat) → Option (CharArray size)
  realloc : (size : Nat) → Option (CharArray size)

def Heap.resize (heap : Heap) {old : Nat} (data : CharArray old) (size : Nat) :
    Option (CharArray size) :=
  (heap.realloc size).map fun fresh =>
    ⟨data.cells.take size ++ fresh.cells.drop old, by simp [data.length_eq, fresh.length_eq]; omega⟩

/-- A block that `malloc(asked)` gave. Allocators round up, and that of glibc gives bytes that can be
written for 0 as well. -/
structure Block (asked : Nat) where
  usable : Nat
  data : CharArray usable
  enough : asked ≤ usable

def startable {asked : Nat} (block : Option (Block asked)) : Bool :=
  block.any fun given => 0 < given.usable

theorem startable_iff {asked : Nat} (positive : 0 < asked) (block : Option (Block asked)) :
    startable block = true ↔ block.isSome := by
  cases block with
  | none => simp [startable]
  | some given => simpa [startable] using Nat.lt_of_lt_of_le positive given.enough

structure WriteBuf where
  size : Nat
  data : CharArray size
  len : Nat
  cap : Nat

def WriteBuf.append (buf : WriteBuf) (ptr : Bytes) : Option (Nat × WriteBuf) := do
  let total := ptr.length
  let data ← buf.data.overwrite buf.len ptr
  let data ← data.write (buf.len + total) 0
  return (total, { buf with data, len := buf.len + total })

/-- The returned number and the buffer; nothing when an access is outside the block. -/
def writeCb (heap : Heap) (ptr : Bytes) (buf : WriteBuf) : Option (Nat × WriteBuf) :=
  let total := ptr.length
  if buf.len + total < buf.cap then buf.append ptr
  else
    let cap := buf.len + total + 4096
    match heap.resize buf.data cap with
    | none => some (0, { buf with cap })
    | some data => WriteBuf.append { size := cap, data, len := buf.len, cap } ptr

/-- The chunks in which libcurl passes the body to the callback, and how the transfer ends
where the callback takes them all. -/
structure Transfer where
  chunks : List Bytes
  exchange : Exchange

def Transfer.body (transfer : Transfer) : Bytes := transfer.chunks.flatten

/-- The callback is called without bytes only once, for an empty body. -/
def Transfer.Documented (transfer : Transfer) : Prop :=
  [] ∈ transfer.chunks → transfer.chunks = [[]]

def Transfer.filled (transfer : Transfer) : Transfer :=
  { transfer with chunks := transfer.chunks.filter (!·.isEmpty) }

def receive (heap : Heap) : List Bytes → WriteBuf → Option (Bool × WriteBuf)
  | [], buf => some (true, buf)
  | chunk :: rest, buf => do
    let (count, buf) ← writeCb heap chunk buf
    if count = chunk.length then receive heap rest buf else some (false, buf)

def curleWriteError : Nat := 23

/-- `length` is the third argument of the `strncpy` to `response`, when it is called. -/
structure GetOutcome (respSize : UInt64) where
  rc : Int
  response : Option (CharArray respSize.toNat)
  length : Option UInt64

variable {respSize : UInt64}

/-- `response` is a null pointer or an array of `respSize` bytes; the answer is nothing when
an access is outside an array. -/
def httpClientGet (client : HttpClient) (heap : Heap) (network : Bytes → Transfer)
    (endpoint : Bytes) (response : Option (CharArray respSize.toNat)) :
    Option (GetOutcome respSize) :=
  if client.curl = false then some ⟨-1, response, none⟩
  else do
    let transfer := network (snprintf 1024 (client.baseUrl.str ++ endpoint))
    let data ← heap.malloc respSize.toNat
    let data ← data.write 0 0
    let buf : WriteBuf := ⟨respSize.toNat, data, 0, respSize.toNat⟩
    let (taken, buf) ← receive heap transfer.chunks buf
    let res := if taken then curlEasyPerform transfer.exchange else curleWriteError
    if res = curleOk then
      let filled ← (← response).copyFrom buf.data.cells (respSize - 1).toNat
      return ⟨0, some filled, some (respSize - 1)⟩
    else return ⟨-1, response, none⟩

/-- The same in a block of which more bytes may be there than were asked for. -/
def httpClientGetIn (client : HttpClient) (heap : Heap) (network : Bytes → Transfer)
    (endpoint : Bytes) (block : Option (Block respSize.toNat))
    (response : Option (CharArray respSize.toNat)) : Option (GetOutcome respSize) :=
  if client.curl = false then some ⟨-1, response, none⟩
  else do
    let transfer := network (snprintf 1024 (client.baseUrl.str ++ endpoint))
    let block ← block
    let data ← block.data.write 0 0
    let buf : WriteBuf := ⟨block.usable, data, 0, respSize.toNat⟩
    let (taken, buf) ← receive heap transfer.chunks buf
    let res := if taken then curlEasyPerform transfer.exchange else curleWriteError
    if res = curleOk then
      let filled ← (← response).copyFrom buf.data.cells (respSize - 1).toNat
      return ⟨0, some filled, some (respSize - 1)⟩
    else return ⟨-1, response, none⟩

theorem httpClientGet_exact (client : HttpClient) (heap : Heap) (network : Bytes → Transfer)
    (endpoint : Bytes) (response : Option (CharArray respSize.toNat)) :
    httpClientGet client heap network endpoint response =
      httpClientGetIn client heap network endpoint
        ((heap.malloc respSize.toNat).map fun data => ⟨respSize.toNat, data, le_rfl⟩) response := by
  unfold httpClientGet httpClientGetIn
  cases heap.malloc respSize.toNat <;> rfl

structure WriteBuf.Holds (buf : WriteBuf) (received : Bytes) : Prop where
  cap : buf.cap = buf.size
  len : buf.len = received.length
  room : received.length < buf.size
  cells : received ++ [0] <+: buf.data.cells

structure WriteBuf.Accumulates (buf : WriteBuf) (received : Bytes) : Prop where
  cap : buf.cap = buf.size
  len : buf.len = received.length
  cells : received <+: buf.data.cells

theorem WriteBuf.Holds.accumulates {buf : WriteBuf} {received : Bytes}
    (holds : buf.Holds received) : buf.Accumulates received :=
  ⟨holds.cap, holds.len, (List.prefix_append _ _).trans holds.cells⟩

theorem append_completes {buf : WriteBuf} {received ptr : Bytes}
    (accumulates : buf.Accumulates received) (room : received.length + ptr.length < buf.size) :
    Completes (buf.append ptr) fun result => result.1 = ptr.length ∧
      result.2.Holds (received ++ ptr) ∧ result.2.cap = buf.cap := by
  obtain ⟨cap, len, cells⟩ := accumulates
  have inside : buf.len + ptr.length ≤ buf.data.cells.length := by
    rw [buf.data.length_eq]
    omega
  have front : buf.data.cells.take buf.len = received := by
    rw [len]
    exact (List.prefix_iff_eq_take.mp cells).symm
  refine (overwrite_completes (by omega)).bind fun data copied => ?_
  rw [front] at copied
  have starts : received ++ ptr <+: data.cells := ⟨_, copied.symm⟩
  have length : (received ++ ptr).length = buf.len + ptr.length := by simp [len]
  have writes : Completes (data.write (received ++ ptr).length 0) _ :=
    write_behind starts (by omega) 0
  rw [length] at writes
  refine writes.bind fun ended closed => completes_pure ?_
  refine ⟨rfl, ⟨cap, length.symm, ?_, closed⟩, rfl⟩
  simpa using room

def growths : Nat → Nat → List Bytes → List Nat
  | _, _, [] => []
  | cap, len, chunk :: rest =>
    if len + chunk.length < cap then growths cap (len + chunk.length) rest
    else (len + chunk.length + 4096) ::
      growths (len + chunk.length + 4096) (len + chunk.length) rest

theorem WriteBuf.Accumulates.resize {heap : Heap} {buf : WriteBuf} {received : Bytes} {size : Nat}
    (accumulates : buf.Accumulates received) (larger : received.length ≤ size)
    (given : (heap.realloc size).isSome) :
    ∃ data, heap.resize buf.data size = some data ∧ received <+: data.cells := by
  obtain ⟨fresh, given⟩ := Option.isSome_iff_exists.mp given
  refine ⟨_, by rw [Heap.resize, given, Option.map_some], ?_⟩
  exact (List.prefix_take_iff.mpr ⟨accumulates.cells, larger⟩).trans (List.prefix_append _ _)

theorem writeCb_completes {heap : Heap} {buf : WriteBuf} {received : Bytes}
    (accumulates : buf.Accumulates received) (ptr : Bytes) :
    Completes (writeCb heap ptr buf) fun result =>
      (result.1 = ptr.length ∧ result.2.Holds (received ++ ptr) ∧
        (buf.len + ptr.length < buf.cap ∧ result.2.cap = buf.cap ∨
          ¬buf.len + ptr.length < buf.cap ∧ (heap.realloc (buf.len + ptr.length + 4096)).isSome ∧
            result.2.cap = buf.len + ptr.length + 4096)) ∨
      (result = (0, { buf with cap := buf.len + ptr.length + 4096 }) ∧
        ¬buf.len + ptr.length < buf.cap ∧
        heap.realloc (buf.len + ptr.length + 4096) = none) := by
  have cap := accumulates.cap
  have len := accumulates.len
  unfold writeCb
  by_cases fits : buf.len + ptr.length < buf.cap
  · rw [if_pos fits]
    refine (append_completes accumulates (by omega)).mono ?_
    rintro result ⟨counted, taken, sameCap⟩
    exact Or.inl ⟨counted, taken, Or.inl ⟨fits, sameCap⟩⟩
  · rw [if_neg fits]
    dsimp only
    by_cases given : (heap.realloc (buf.len + ptr.length + 4096)).isSome
    · obtain ⟨data, resized, moved⟩ := accumulates.resize (by omega) given
      have grown : WriteBuf.Accumulates
          ⟨buf.len + ptr.length + 4096, data, buf.len, buf.len + ptr.length + 4096⟩ received :=
        ⟨rfl, len, moved⟩
      rw [resized]
      refine (append_completes grown (by dsimp only; omega)).mono ?_
      rintro result ⟨counted, taken, sameCap⟩
      exact Or.inl ⟨counted, taken, Or.inr ⟨fits, given, sameCap⟩⟩
    · rw [Option.not_isSome_iff_eq_none] at given
      have refused : heap.resize buf.data (buf.len + ptr.length + 4096) = none := by
        simp [Heap.resize, given]
      rw [refused]
      exact completes_some (Or.inr ⟨rfl, fits, given⟩)

theorem receive_completes {heap : Heap} {chunks : List Bytes} {buf : WriteBuf} {received : Bytes}
    (holds : buf.Holds received) : Completes (receive heap chunks buf) fun result =>
      (result.1 = true ↔ ∀ size ∈ growths buf.cap buf.len chunks, (heap.realloc size).isSome) ∧
      (result.1 = true → result.2.Holds (received ++ chunks.flatten)) := by
  induction chunks generalizing buf received with
  | nil => exact completes_some (by simpa [growths] using holds)
  | cons chunk rest ih =>
      rw [receive, growths]
      refine (writeCb_completes holds.accumulates chunk).bind fun written outcome => ?_
      obtain ⟨count, next⟩ := written
      dsimp only at outcome ⊢
      rcases outcome with ⟨counted, nextHolds, grown⟩ | ⟨returned, full, refused⟩
      · have later := ih nextHolds
        rw [nextHolds.len, List.length_append, ← holds.len] at later
        rw [if_pos counted, List.flatten_cons, ← List.append_assoc]
        rcases grown with ⟨fits, sameCap⟩ | ⟨full, given, newCap⟩
        · rw [if_pos fits, ← sameCap]
          exact later
        · rw [newCap] at later
          rw [if_neg full]
          simpa [given] using later
      · have other : count ≠ chunk.length := by
          have cap := holds.cap
          have len := holds.len
          have room := holds.room
          have zero : count = 0 := congrArg Prod.fst returned
          omega
        rw [if_neg other, if_neg full]
        exact completes_some (by simp [refused])

theorem receive_nothing {heap : Heap} {usable : Nat} (data : CharArray usable) :
    Completes (receive heap [[]] ⟨usable, data, 0, 0⟩) fun result => result.1 = true := by
  simp only [receive, writeCb, List.length_nil, Nat.not_lt_zero, if_false]
  cases heap.resize data (0 + 0 + 4096) with
  | none => exact completes_some rfl
  | some moved =>
      have fresh : WriteBuf.Accumulates ⟨0 + 0 + 4096, moved, 0, 0 + 0 + 4096⟩ [] :=
        ⟨rfl, rfl, List.nil_prefix⟩
      have fits : ([] : Bytes).length + ([] : Bytes).length < 0 + 0 + 4096 := by decide
      refine (append_completes fresh fits).bind fun written outcome => ?_
      obtain ⟨count, next⟩ := written
      obtain ⟨counted, -, -⟩ := outcome
      rw [if_pos (counted.trans List.length_nil)]
      exact completes_some rfl

theorem receive_fromNothing {heap : Heap} {usable : Nat} (data : CharArray usable)
    {chunks : List Bytes} (nonempty : ∀ chunk ∈ chunks, chunk ≠ []) :
    Completes (receive heap chunks ⟨usable, data, 0, 0⟩) fun result =>
      result.1 = true ↔ ∀ size ∈ growths 0 0 chunks, (heap.realloc size).isSome := by
  cases chunks with
  | nil => exact completes_some (by simp [growths])
  | cons chunk rest =>
      have positive := List.length_pos_iff.mpr (nonempty chunk List.mem_cons_self)
      simp only [receive, growths, writeCb, Nat.not_lt_zero, if_false]
      cases given : heap.realloc (0 + chunk.length + 4096) with
      | none =>
          have refused : heap.resize data (0 + chunk.length + 4096) = none := by
            rw [Heap.resize, given, Option.map_none]
          rw [refused, Option.bind_eq_bind, Option.bind_some, if_neg (by omega)]
          refine completes_some (iff_of_false Bool.false_ne_true fun all => ?_)
          have first := all _ List.mem_cons_self
          rw [given] at first
          exact Bool.false_ne_true first
      | some fresh =>
          obtain ⟨moved, resized⟩ : ∃ moved,
              heap.resize data (0 + chunk.length + 4096) = some moved := by
            rw [Heap.resize, given, Option.map_some]
            exact ⟨_, rfl⟩
          have grown : WriteBuf.Accumulates ⟨0 + chunk.length + 4096, moved, 0,
            0 + chunk.length + 4096⟩ [] := ⟨rfl, rfl, List.nil_prefix⟩
          rw [resized]
          refine (append_completes grown (by simp)).bind fun written outcome => ?_
          obtain ⟨count, next⟩ := written
          obtain ⟨counted, holds, sameCap⟩ := outcome
          dsimp only at counted holds sameCap ⊢
          rw [if_pos counted, List.forall_mem_cons, given]
          have later : Completes (receive heap rest next) _ := receive_completes holds
          rw [sameCap, holds.len, List.nil_append, ← Nat.zero_add chunk.length] at later
          exact later.mono fun result received => by simpa using received.1

theorem receive_documented {heap : Heap} {usable : Nat} (data : CharArray usable) {transfer : Transfer}
    (documented : transfer.Documented) :
    Completes (receive heap transfer.chunks ⟨usable, data, 0, 0⟩) fun result =>
      result.1 = true ↔ ∀ size ∈ growths 0 0 transfer.filled.chunks, (heap.realloc size).isSome := by
  by_cases empty : [] ∈ transfer.chunks
  · rw [Transfer.filled, documented empty]
    exact (receive_nothing data).mono fun result taken => by simp [taken, growths]
  · have same : transfer.filled.chunks = transfer.chunks := by
      refine List.filter_eq_self.mpr fun chunk member => ?_
      cases chunk with
      | nil => exact absurd member empty
      | cons _ _ => rfl
    rw [same]
    exact receive_fromNothing data fun chunk member absent => empty (absent ▸ member)

/-- Either nothing is written, or the front of the body stands in the array with a NUL behind
it; every access was inside, and the length of the copy did not wrap around. -/
def FillsSafely (client : HttpClient) (heap : Heap) (network : Bytes → Transfer) (endpoint : Bytes)
    (response : Option (CharArray respSize.toNat)) (body : Bytes) : Prop :=
  Completes (httpClientGet client heap network endpoint response) fun outcome =>
    (∀ length ∈ outcome.length, length.toNat + 1 = respSize.toNat) ∧
    (outcome.rc = 0 →
      if respSize = 0 then outcome.response = response
      else ∃ array ∈ outcome.response, body.take (respSize.toNat - 1) ++ [0] <+: array.cells)

def requested (client : HttpClient) (network : Bytes → Transfer) (endpoint : Bytes) : Transfer :=
  network (snprintf 1024 (client.baseUrl.str ++ endpoint))

/-- The transfer succeeds, and the callback gets the memory it asks for. -/
structure Delivered (heap : Heap) (size : Nat) (transfer : Transfer) : Prop where
  completed : curlEasyPerform transfer.exchange = curleOk
  grown : ∀ cap ∈ growths size 0 transfer.chunks, (heap.realloc cap).isSome

/-- A body without bytes behind a NUL, shorter than the array or before a NUL at its end. -/
structure Suits (body : Bytes) {size : Nat} (array : CharArray size) : Prop where
  padded : Padded (body.take (size - 1))
  ended : body.length < size - 1 ∨ array.cells.getLast? = some 0

structure Receivable (heap : Heap) (transfer : Transfer)
    (response : Option (CharArray respSize.toNat)) : Prop where
  positive : respSize ≠ 0
  allocated : (heap.malloc respSize.toNat).isSome
  suits : Delivered heap respSize.toNat transfer → ∃ array ∈ response, Suits transfer.body array

variable {client : HttpClient} {heap : Heap} {network : Bytes → Transfer} {endpoint : Bytes}
  {response : Option (CharArray respSize.toNat)}

theorem httpClientGet_empty (handle : client.curl ≠ false) (empty : respSize = 0) :
    httpClientGet client heap network endpoint response = none := by
  subst empty
  rw [httpClientGet, if_neg handle]
  cases heap.malloc (0 : UInt64).toNat with
  | none => rfl
  | some data => simp [CharArray.write]

theorem httpClientGet_unallocated (handle : client.curl ≠ false)
    (refused : heap.malloc respSize.toNat = none) :
    httpClientGet client heap network endpoint response = none := by
  rw [httpClientGet, if_neg handle, refused]
  rfl

theorem length_positive (positive : respSize ≠ 0) : 0 < respSize.toNat := by
  rw [Nat.pos_iff_ne_zero]
  exact fun zero => positive (UInt64.toNat_inj.mp zero)

theorem httpClientGet_eq (network : Bytes → Transfer) (endpoint : Bytes)
    (response : Option (CharArray respSize.toNat)) (handle : client.curl ≠ false)
    (positive : respSize ≠ 0) (allocated : (heap.malloc respSize.toNat).isSome) :
    let transfer := requested client network endpoint
    (¬Delivered heap respSize.toNat transfer ∧
      httpClientGet client heap network endpoint response = some ⟨-1, response, none⟩) ∨
    (Delivered heap respSize.toNat transfer ∧ ∃ buf : WriteBuf, buf.Holds transfer.body ∧
      httpClientGet client heap network endpoint response = do
        let filled ← (← response).copyFrom buf.data.cells (respSize - 1).toNat
        return ⟨0, some filled, some (respSize - 1)⟩) := by
  have room := length_positive positive
  obtain ⟨fresh, given⟩ := Option.isSome_iff_exists.mp allocated
  have writes : Completes (fresh.write 0 0) fun data => [0] <+: data.cells :=
    write_behind List.nil_prefix room 0
  obtain ⟨data, written, ended⟩ := writes
  have holds : WriteBuf.Holds ⟨respSize.toNat, data, 0, respSize.toNat⟩ [] :=
    ⟨rfl, rfl, room, ended⟩
  have receives : Completes (receive heap (requested client network endpoint).chunks
    ⟨respSize.toNat, data, 0, respSize.toNat⟩) _ := receive_completes holds
  obtain ⟨⟨taken, buf⟩, received, grown, bufHolds⟩ := receives
  dsimp only at grown bufHolds
  have run : httpClientGet client heap network endpoint response =
      if (if taken then curlEasyPerform (requested client network endpoint).exchange
          else curleWriteError) = curleOk then do
        let filled ← (← response).copyFrom buf.data.cells (respSize - 1).toNat
        return ⟨0, some filled, some (respSize - 1)⟩
      else some ⟨-1, response, none⟩ := by
    rw [httpClientGet, if_neg handle, given]
    simp only [Option.bind_eq_bind, Option.bind_some, written]
    change (receive heap (requested client network endpoint).chunks _).bind _ = _
    rw [received]
    rfl
  by_cases delivered : Delivered heap respSize.toNat (requested client network endpoint)
  · have all := grown.mpr delivered.grown
    refine Or.inr ⟨delivered, buf, by simpa [Transfer.body] using bufHolds all, ?_⟩
    rw [run, if_pos all, if_pos delivered.completed]
  · refine Or.inl ⟨delivered, ?_⟩
    rw [run, if_neg]
    intro ok
    split at ok
    · rename_i all
      exact delivered ⟨ok, grown.mp all⟩
    · exact absurd ok (by decide)

theorem respSize_sub_one (positive : respSize ≠ 0) :
    (respSize - 1).toNat = respSize.toNat - 1 := by
  apply UInt64.toNat_sub_of_le
  rw [UInt64.le_iff_toNat_le]
  exact length_positive positive

theorem fillsSafely_delivered {array : CharArray respSize.toNat} {body : Bytes} {buf : WriteBuf}
    (positive : respSize ≠ 0) (holds : buf.Holds body)
    (ran : httpClientGet client heap network endpoint (some array) = do
      let filled ← array.copyFrom buf.data.cells (respSize - 1).toNat
      return ⟨0, some filled, some (respSize - 1)⟩) :
    FillsSafely client heap network endpoint (some array) body ↔ Suits body array := by
  have small := respSize_sub_one positive
  have room := length_positive positive
  obtain ⟨behind, memory⟩ := holds.cells
  have copies : Completes (array.copyFrom buf.data.cells (respSize - 1).toNat) _ :=
    copyFrom_completes (by omega) (Or.inl (by rw [← memory]; simp))
  obtain ⟨filled, copied, cells⟩ := copies
  rw [Option.bind_eq_bind, copied] at ran
  have front := @strncpy_string_iff _ array filled room body behind
    (by rw [cells, small, ← memory]; simp)
  constructor
  · rintro ⟨outcome, answered, _, filledSafely⟩
    rw [ran] at answered
    obtain rfl := Option.some.inj answered
    have starts : body.take (respSize.toNat - 1) ++ [0] <+: filled.cells := by
      simpa [positive] using filledSafely
    obtain ⟨padded, ended⟩ := front.mp starts
    exact ⟨padded, ended⟩
  · intro suits
    refine ⟨_, ran, ?_, fun _ => ?_⟩
    · intro length called
      obtain rfl := Option.some.inj called
      omega
    · rw [if_neg positive]
      exact ⟨filled, rfl, front.mpr ⟨suits.padded, suits.ended⟩⟩

theorem httpClientGet_fills_iff :
    FillsSafely client heap network endpoint response (requested client network endpoint).body ↔
      client.curl = false ∨
        Receivable heap (requested client network endpoint) response := by
  by_cases handle : client.curl = false
  · simp only [handle, true_or, iff_true]
    refine ⟨⟨-1, response, none⟩, ?_, by simp, by simp⟩
    rw [httpClientGet, if_pos handle]
  rw [or_iff_right handle]
  by_cases positive : respSize = 0
  · constructor
    · rintro ⟨outcome, ran, _⟩
      simp [httpClientGet_empty handle positive] at ran
    · exact fun receivable => absurd positive receivable.positive
  cases given : heap.malloc respSize.toNat with
  | none =>
      constructor
      · rintro ⟨outcome, ran, _⟩
        simp [httpClientGet_unallocated handle given] at ran
      · intro receivable
        have allocated := receivable.allocated
        simp [given] at allocated
  | some data =>
      have allocated : (heap.malloc respSize.toNat).isSome := by simp [given]
      rcases httpClientGet_eq network endpoint response handle positive allocated with
        ⟨failed, ran⟩ | ⟨delivered, buf, holds, ran⟩
      · constructor
        · exact fun _ => ⟨positive, allocated, fun delivered => absurd delivered failed⟩
        · exact fun _ => ⟨_, ran, by simp, by simp⟩
      · cases response with
        | none =>
            constructor
            · rintro ⟨outcome, answered, _⟩
              rw [ran] at answered
              simp at answered
            · intro receivable
              obtain ⟨array, points, _⟩ := receivable.suits delivered
              simp at points
        | some array =>
            rw [fillsSafely_delivered positive holds ran]
            constructor
            · exact fun suits => ⟨positive, allocated, fun _ => ⟨array, rfl, suits⟩⟩
            · intro receivable
              obtain ⟨same, points, suits⟩ := receivable.suits delivered
              obtain rfl := Option.some.inj points
              exact suits

def zeroHeap : Heap := ⟨fun _ => some .zero, fun _ => some .zero⟩

def verifyEndpoint : Bytes := ascii "/api/verify"

def answering (chunks : List Bytes) : Bytes → Transfer := fun _ => ⟨chunks, .completed 200⟩

theorem nullResponse_unsafe : ¬FillsSafely ⟨true, .zero⟩ zeroHeap (answering [ascii "\x7b\x7d"])
    verifyEndpoint (none : Option (CharArray (0 : UInt64).toNat)) (ascii "\x7b\x7d") := by
  rintro ⟨outcome, ran, _⟩
  have nothing : httpClientGet ⟨true, .zero⟩ zeroHeap (answering [ascii "\x7b\x7d"])
      verifyEndpoint (none : Option (CharArray (0 : UInt64).toNat)) = none :=
    httpClientGet_empty (by decide) rfl
  simp [nothing] at ran

end BlockchainAuditor
