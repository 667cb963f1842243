import BlockchainAuditor.TamperDetection
import BlockchainAuditor.Library.Lifetimes
import BlockchainAuditor.Library.Transitions

/-! The static array `cached_lines` of `log_local.c`: the blocks that `strdup` gives for the lines,
who frees them, and what the functions that go through the pointers compute. -/

namespace BlockchainAuditor

open CStrings CharArray KeyedText LineReader Lifetimes Transitions

/-- `cached_lines` and `cached_count`, with the blocks on the heap. -/
structure LogCache where
  memory : Memory Bytes
  cachedLines : Nat → Option Nat
  cachedCount : Nat

def LogCache.start : LogCache := ⟨Memory.empty, fun _ => none, 0⟩

def LogCache.cell (cache : LogCache) (i : Nat) : Option (Option Nat) :=
  if i < cachedLinesMax then some (cache.cachedLines i) else none

/-- The string `cached_lines[i]` points to; the pointer must be to a live block. -/
def LogCache.line (cache : LogCache) (i : Nat) : Option Bytes := do
  let ref ← (← cache.cell i)
  cache.memory.objects ref

def LogCache.freeLines (cache : LogCache) : Nat → Nat → Memory Bytes → Option (Memory Bytes)
  | _, 0, memory => some memory
  | i, left + 1, memory => do
    let memory ← memory.free (← cache.cell i)
    cache.freeLines (i + 1) left memory

def LogCache.destroy (cache : LogCache) : Option LogCache := do
  let memory ← cache.freeLines 0 cache.cachedCount cache.memory
  return { cache with memory, cachedCount := 0 }

def LogCache.push (cache : LogCache) (allocates : Bool) (line : Bytes) : Option LogCache := do
  let _ ← cache.cell cache.cachedCount
  let (memory, pointer) :=
    if allocates then (cache.memory.create line, some cache.memory.next) else (cache.memory, none)
  return {
    memory
    cachedLines := Function.update cache.cachedLines cache.cachedCount pointer
    cachedCount := cache.cachedCount + 1 }

/-- The loop over `fgets`; `strdup i` tells whether the copy for `cached_lines[i]` gets memory. -/
def LogCache.readLoop (strdup : Nat → Bool) : Nat → Bytes → LogCache → Option LogCache
  | 0, _, _ => none
  | fuel + 1, stream, cache =>
    match fgets lineBufferSize stream with
    | none => some cache
    | some (buffer, rest) =>
      if cache.cachedCount < cachedLinesMax then do
        let cache ← cache.push (strdup cache.cachedCount) (chomp buffer)
        LogCache.readLoop strdup fuel rest cache
      else some cache

/-- `local_log_read_all`; `log` is what `fopen` opens for reading, if it can. -/
def LogCache.readAll (strdup : Nat → Bool) (log : Option Bytes) (cache : LogCache) :
    Option LogCache := do
  let cache ← cache.destroy
  match log with
  | none => return cache
  | some contents => LogCache.readLoop strdup (contents.length + 1) contents cache

section Commands

variable (lines : Nat → Option Bytes) (count : Nat)

def printLoop (line : Nat) (text : Bytes) : Nat → Nat → Option (List Bytes)
  | _, 0 => some []
  | i, left + 1 => do
    let printed ← (if i = line then some text else lines i)
    return printed :: (← printLoop line text (i + 1) left)

def tamperLines (writable : Bool) (newLine : CharArray lineBufferSize) (log : Option Bytes)
    (line : Int) (newValue : Bytes) : Option (Int × Option Bytes) := do
  if line < 0 ∨ count ≤ line then return (-1, log)
  let orig ← lines line.toNat
  let some _ := strstr (ascii "\"hash\"") orig | return (-1, log)
  let some cmdPos := findKey orig "\"command\":\"" 11 | return (-1, log)
  let cmdEnd := cmdPos.dropWhile (· ≠ quote)
  if cmdEnd = [] then return (-1, log)
  let frontLen := orig.length - cmdPos.length
  let newLine ← newLine.copyFrom (cString orig) frontLen
  let newLine ← newLine.write frontLen 0
  let newLine ← newLine.strncat newValue (lineBufferSize - (← newLine.readStr).length - 1)
  let newLine ← newLine.strncat cmdEnd (lineBufferSize - (← newLine.readStr).length - 1)
  if writable = false then return (-1, log)
  return (0, some (fileText (← printLoop lines line.toNat (← newLine.readStr) 0 count)))

variable (sha256 : Bytes → Digest) (overflow : Overflow)
  (storedHash : Nat → CharArray hashHexSize)

def checkLoop : Nat → Nat → IntegrityReport → Option IntegrityReport
  | _, 0, report => some report
  | i, left + 1, report => do
    let verdict ← checkLine sha256 overflow (storedHash i) (← lines i)
    checkLoop (i + 1) left (report.add verdict)

end Commands

def LogCache.simulateTamper (strdup : Nat → Bool) (writable : Bool)
    (newLine : CharArray lineBufferSize) (log : Option Bytes) (line : Int) (newValue : Bytes)
    (cache : LogCache) : Option (LogCache × Int × Option Bytes) := do
  let cache ← cache.readAll strdup log
  let (rc, log) ← tamperLines cache.line cache.cachedCount writable newLine log line newValue
  return (cache, rc, log)

def integrityTestArgs (overflow : Overflow) : List Bytes → Option (Int × Bytes)
  | [] => some (-1, ascii "TAMPERED")
  | [first] => do return ((← atoi overflow first).toInt, ascii "TAMPERED")
  | first :: second :: _ => do return ((← atoi overflow first).toInt, second)

/-- The readings before the loop that checks the lines, with the change in between. There are up to
three, and `strdup` is told which of them a copy is for. -/
def LogCache.readings (strdup : Nat → Nat → Bool) (writable : Bool)
    (newLine : CharArray lineBufferSize) (log : Option Bytes) (tamperLine : Int)
    (tamperValue : Bytes) (cache : LogCache) : Option (LogCache × Option Bytes) := do
  let cache ← cache.readAll (strdup 0) log
  if 0 ≤ tamperLine ∧ tamperLine < cache.cachedCount then
    let (cache, _, log) ← cache.simulateTamper (strdup 1) writable newLine log tamperLine tamperValue
    return (← cache.readAll (strdup 2) log, log)
  else return (cache, log)

def LogCache.integrityTest (sha256 : Bytes → Digest) (overflow : Overflow) (check : GatewayCheck)
    (storedHash : Nat → CharArray hashHexSize) (strdup : Nat → Nat → Bool) (writable : Bool)
    (newLine : CharArray lineBufferSize) (argv : List Bytes) (log : Option Bytes)
    (cache : LogCache) : Option (LogCache × Int × IntegrityReport × Option Bytes) := do
  check.run
  let (tamperLine, tamperValue) ← integrityTestArgs overflow argv
  let (cache, log) ← cache.readings strdup writable newLine log tamperLine tamperValue
  let report ← checkLoop cache.line sha256 overflow storedHash 0 cache.cachedCount ⟨[], 0, 0⟩
  return (cache, report.rc, report, log)

def LogCache.pointers (cache : LogCache) : List (Option Nat) :=
  (List.range cache.cachedCount).map cache.cachedLines

structure LogCache.Owned (cache : LogCache) : Prop where
  room : cache.cachedCount ≤ cachedLinesMax
  blocks : cache.memory.OwnedBy cache.pointers

variable {cache : LogCache} {strdup : Nat → Bool} {log : Option Bytes}

theorem start_owned : LogCache.start.Owned where
  room := Nat.zero_le _
  blocks := ownedBy_empty

theorem freeLines_frees {left : Nat} : ∀ {i : Nat} {memory : Memory Bytes},
    i + left ≤ cachedLinesMax → memory.OwnedBy ((List.range' i left).map cache.cachedLines) →
      ∃ after, cache.freeLines i left memory = some after ∧ after.OwnedBy [] := by
  induction left with
  | zero => exact fun {i memory} _ owned => ⟨memory, rfl, by simpa using owned⟩
  | succ left ih =>
      intro i memory inside owned
      rw [List.range'_succ, List.map_cons] at owned
      obtain ⟨freed, frees, others⟩ := owned.free
      obtain ⟨after, rest, empty⟩ := ih (by omega) others
      have cell : cache.cell i = some (cache.cachedLines i) := if_pos (by omega)
      refine ⟨after, ?_, empty⟩
      rw [LogCache.freeLines, cell, Option.bind_eq_bind, Option.bind_some, frees]
      exact rest

theorem LogCache.Owned.destroy (owned : cache.Owned) :
    ∃ next, cache.destroy = some next ∧ next.Owned ∧ next.cachedCount = 0 ∧
      ∀ ref, ¬next.memory.Live ref := by
  have blocks := owned.blocks
  rw [LogCache.pointers, List.range_eq_range'] at blocks
  obtain ⟨memory, freed, empty⟩ := freeLines_frees (by have := owned.room; omega) blocks
  refine ⟨{ cache with memory, cachedCount := 0 }, ?_, ⟨Nat.zero_le _, empty⟩, rfl, fun ref live => ?_⟩
  · rw [LogCache.destroy, freed]
    rfl
  · simpa using (empty.live ref).mp live

/-- The cached lines, of which those are missing for which there was no memory. -/
structure LogCache.Holds (cache : LogCache) (strdup : Nat → Bool) (lines : List Bytes) : Prop
    extends cache.Owned where
  count : cache.cachedCount = lines.length
  reads : ∀ i, i < lines.length → cache.line i = if strdup i then lines[i]? else none

theorem LogCache.Owned.push (owned : cache.Owned) (more : cache.cachedCount < cachedLinesMax)
    (allocates : Bool) (line : Bytes) :
    ∃ next, cache.push allocates line = some next ∧ next.Owned ∧
      next.cachedCount = cache.cachedCount + 1 ∧
      next.line cache.cachedCount = (if allocates then some line else none) ∧
      ∀ i < cache.cachedCount, next.line i = cache.line i := by
  have cell : cache.cell cache.cachedCount = some (cache.cachedLines cache.cachedCount) := if_pos more
  have earlier : ∀ pointer, (List.range (cache.cachedCount + 1)).map
      (Function.update cache.cachedLines cache.cachedCount pointer) = cache.pointers ++ [pointer] := by
    intro pointer
    rw [List.range_succ, List.map_append, List.map_singleton, Function.update_self]
    congr 1
    refine List.map_congr_left fun i member => Function.update_of_ne ?_ _ _
    have below := List.mem_range.mp member
    omega
  have used : ∀ i < cache.cachedCount, ∀ ref, cache.cachedLines i = some ref →
      ref ≠ cache.memory.next := by
    intro i inside ref here
    have live := (owned.blocks.live ref).mpr
      (List.mem_map.mpr ⟨i, List.mem_range.mpr inside, here⟩)
    exact Nat.ne_of_lt live.below
  rw [LogCache.push, cell]
  cases allocates with
  | false =>
      refine ⟨_, rfl, ⟨more, ?_⟩, rfl, ?_, fun i inside => ?_⟩
      · rw [LogCache.pointers]
        simpa only [earlier] using owned.blocks.null
      · simp [LogCache.line, LogCache.cell, more]
      · have apart : i ≠ cache.cachedCount := by omega
        simp [LogCache.line, LogCache.cell, apart]
  | true =>
      refine ⟨_, rfl, ⟨more, ?_⟩, rfl, ?_, fun i inside => ?_⟩
      · rw [LogCache.pointers]
        simpa only [earlier] using owned.blocks.create line
      · simp [LogCache.line, LogCache.cell, more]
      · have apart : i ≠ cache.cachedCount := by omega
        have below : i < cachedLinesMax := by omega
        simp only [LogCache.line, LogCache.cell, below, if_true, Function.update_of_ne apart,
          Option.bind_eq_bind, Option.bind_some]
        cases here : cache.cachedLines i with
        | none => rfl
        | some ref => exact Function.update_of_ne (used i inside ref here) _ _

theorem readLoop_holds {fuel : Nat} : ∀ {stream : Bytes} {cache : LogCache} {before : List Bytes},
    cache.Holds strdup before → stream.length < fuel →
      ∃ next, LogCache.readLoop strdup fuel stream cache = some next ∧ next.Holds strdup
        (before ++ readLines lineBufferSize (cachedLinesMax - before.length) stream) := by
  induction fuel with
  | zero => exact fun _ short => absurd short (Nat.not_lt_zero _)
  | succ fuel ih =>
      intro stream cache before holds short
      rw [LogCache.readLoop]
      by_cases ended : stream = []
      · have none : readLines lineBufferSize (cachedLinesMax - before.length) stream = [] := by
          cases cachedLinesMax - before.length <;> simp [readLines, fgets, ended]
        rw [fgets, if_pos ended, none, List.append_nil]
        exact ⟨cache, rfl, holds⟩
      rw [fgets, if_neg ended]
      dsimp only
      by_cases more : cache.cachedCount < cachedLinesMax
      · obtain ⟨next, pushes, owned, count, last, earlier⟩ := holds.toOwned.push more
          (strdup cache.cachedCount) (chomp (takeLine (lineBufferSize - 1) stream).1)
        obtain ⟨limit, left⟩ : ∃ limit, cachedLinesMax - before.length = limit + 1 :=
          ⟨cachedLinesMax - before.length - 1, by have := holds.count; omega⟩
        have extended : next.Holds strdup
            (before ++ [chomp (takeLine (lineBufferSize - 1) stream).1]) := by
          refine ⟨owned, by simp [count, holds.count], fun i inside => ?_⟩
          by_cases atEnd : i = before.length
          · rw [atEnd, ← holds.count, last, holds.count]
            simp
          · rw [List.length_append, List.length_singleton] at inside
            have early : i < before.length := by omega
            rw [earlier i (by rw [holds.count]; exact early), holds.reads i early,
              List.getElem?_append_left early]
        have shorter := takeLine_shorter (by decide : 0 < lineBufferSize - 1) ended
        obtain ⟨final, reads, atEnd⟩ := ih extended (by omega :
          (takeLine (lineBufferSize - 1) stream).2.length < fuel)
        refine ⟨final, ?_, ?_⟩
        · rw [if_pos more, pushes]
          exact reads
        · have room : cachedLinesMax - (before.length + 1) = limit := by omega
          rw [List.append_assoc, List.length_append, List.length_singleton, room] at atEnd
          rw [left, readLines, fgets, if_neg ended]
          exact atEnd
      · have full : cachedLinesMax - before.length = 0 := by have := holds.count; omega
        rw [if_neg more, full, readLines, List.append_nil]
        exact ⟨cache, rfl, holds⟩

theorem LogCache.Owned.readAll (owned : cache.Owned) (strdup : Nat → Bool) (log : Option Bytes) :
    ∃ next, cache.readAll strdup log = some next ∧ next.Holds strdup (localLogReadAll log) := by
  obtain ⟨freed, frees, still, count, -⟩ := owned.destroy
  have empty : freed.Holds strdup [] := ⟨still, count, fun i inside => absurd inside (by simp)⟩
  rw [LogCache.readAll, frees]
  cases log with
  | none => exact ⟨freed, rfl, empty⟩
  | some contents =>
      obtain ⟨next, reads, holds⟩ := readLoop_holds empty (Nat.lt_succ_self contents.length)
      exact ⟨next, reads, holds⟩

/-! What is computed through the pointers is what is computed on the lines. -/

section Commands

variable {lines others : Nat → Option Bytes} {count bound : Nat} {writable : Bool}
  {newLine : CharArray lineBufferSize} {line : Int} {newValue : Bytes}

def Masks (count : Nat) (kept : Nat → Bool) (lines others : Nat → Option Bytes) : Prop :=
  ∀ i < count, lines i = if kept i then others i else none

variable {kept : Nat → Bool}

theorem Masks.eq_some_iff (masks : Masks bound kept lines others) {i : Nat} (inside : i < bound)
    {text : Bytes} : lines i = some text ↔ others i = some text ∧ kept i = true := by
  rw [masks i inside]
  cases kept i <;> simp

theorem printLoop_masks (masks : Masks bound kept lines others) {line : Nat} {text : Bytes}
    {left : Nat} : ∀ {i : Nat} {printed : List Bytes}, i + left ≤ bound →
      (printLoop lines line text i left = some printed ↔
        printLoop others line text i left = some printed ∧
          ∀ k, i ≤ k → k < i + left → k ≠ line → kept k = true) := by
  induction left with
  | zero =>
      intro i printed _
      refine (and_iff_left fun k above below _ => ?_).symm
      omega
  | succ left ih =>
      intro i printed inside
      have later : (∀ k, i ≤ k → k < i + (left + 1) → k ≠ line → kept k = true) ↔
          (i ≠ line → kept i = true) ∧
            ∀ k, i + 1 ≤ k → k < i + 1 + left → k ≠ line → kept k = true := by
        constructor
        · exact fun all => ⟨all i (le_refl i) (by omega),
            fun k above below => all k (by omega) (by omega)⟩
        · rintro ⟨first, others⟩ k above below
          by_cases own : i = k
          · exact own ▸ first
          · exact others k (by omega) (by omega)
      rw [printLoop, printLoop, later]
      simp only [Option.bind_eq_bind, Option.bind_eq_some_iff, ih (by omega : i + 1 + left ≤ bound)]
      by_cases own : i = line
      · simp only [own, if_true, ne_eq, not_true, false_implies, true_and]
        constructor
        · rintro ⟨first, same, rest, ⟨loops, all⟩, printed⟩
          exact ⟨⟨first, same, rest, loops, printed⟩, all⟩
        · rintro ⟨⟨first, same, rest, loops, printed⟩, all⟩
          exact ⟨first, same, rest, ⟨loops, all⟩, printed⟩
      · simp only [own, if_false, masks.eq_some_iff (by omega : i < bound), ne_eq, not_false_iff,
          true_implies]
        constructor
        · rintro ⟨first, ⟨found, here⟩, rest, ⟨loops, all⟩, printed⟩
          exact ⟨⟨first, found, rest, loops, printed⟩, here, all⟩
        · rintro ⟨⟨first, found, rest, loops, printed⟩, here, all⟩
          exact ⟨first, ⟨found, here⟩, rest, ⟨loops, all⟩, printed⟩

theorem checkLoop_masks (masks : Masks bound kept lines others) {sha256 : Bytes → Digest}
    {overflow : Overflow} {storedHash : Nat → CharArray hashHexSize} {left : Nat} :
    ∀ {i : Nat} {report final : IntegrityReport}, i + left ≤ bound →
      (checkLoop lines sha256 overflow storedHash i left report = some final ↔
        checkLoop others sha256 overflow storedHash i left report = some final ∧
          ∀ k, i ≤ k → k < i + left → kept k = true) := by
  induction left with
  | zero =>
      intro i report final _
      refine (and_iff_left fun k above below => ?_).symm
      omega
  | succ left ih =>
      intro i report final inside
      have later : (∀ k, i ≤ k → k < i + (left + 1) → kept k = true) ↔
          kept i = true ∧ ∀ k, i + 1 ≤ k → k < i + 1 + left → kept k = true := by
        constructor
        · exact fun all => ⟨all i (le_refl i) (by omega),
            fun k above below => all k (by omega) (by omega)⟩
        · rintro ⟨first, others⟩ k above below
          by_cases own : i = k
          · exact own ▸ first
          · exact others k (by omega) (by omega)
      rw [checkLoop, checkLoop, later]
      simp only [Option.bind_eq_bind, Option.bind_eq_some_iff, ih (by omega : i + 1 + left ≤ bound),
        masks.eq_some_iff (by omega : i < bound)]
      constructor
      · rintro ⟨text, ⟨found, here⟩, verdict, checks, loops, all⟩
        exact ⟨⟨text, found, verdict, checks, loops⟩, here, all⟩
      · rintro ⟨⟨text, found, verdict, checks, loops⟩, here, all⟩
        exact ⟨text, ⟨found, here⟩, verdict, checks, loops, all⟩

theorem bind_iff {α β : Type} {answer : Option α} {first second : α → Option β} {result : β}
    {holds : Prop} (each : ∀ value, first value = some result ↔ second value = some result ∧ holds) :
    (answer >>= first) = some result ↔ (answer >>= second) = some result ∧ holds := by
  cases answer with
  | none => simp
  | some value => exact each value

theorem tamperLines_masks (masks : Masks count kept lines others) {log after : Option Bytes} {rc : Int} :
    tamperLines lines count writable newLine log line newValue = some (rc, after) ↔
      tamperLines others count writable newLine log line newValue = some (rc, after) ∧
        (0 ≤ line → line < count → kept line.toNat = true ∧
          (rc = 0 → ∀ i < count, i ≠ line.toNat → kept i = true)) := by
  unfold tamperLines
  by_cases outside : line < 0 ∨ (count : Int) ≤ line
  · rw [if_pos outside, if_pos outside]
    exact (and_iff_left fun nonnegative below => absurd outside (by omega)).symm
  rw [if_neg outside, if_neg outside, masks line.toNat (by omega)]
  simp only [(by omega : 0 ≤ line), (by omega : line < count), true_implies]
  have refused : some ((-1 : Int), log) = some (rc, after) ↔ some ((-1 : Int), log) = some (rc, after) ∧
      (rc = 0 → ∀ i < count, i ≠ line.toNat → kept i = true) := by
    refine (and_iff_left_of_imp fun same zero => ?_).symm
    obtain ⟨rfl, -⟩ := Prod.mk.inj (Option.some.inj same)
    exact absurd zero (by decide)
  cases kept line.toNat with
  | false => simp
  | true =>
      rw [if_pos rfl, and_iff_right (rfl : true = true)]
      refine bind_iff fun orig => ?_
      cases strstr (ascii "\"hash\"") orig with
      | none => exact refused
      | some _ =>
          cases findKey orig "\"command\":\"" 11 with
          | none => exact refused
          | some cmdPos =>
              dsimp only
              by_cases ends : cmdPos.dropWhile (· ≠ quote) = []
              · rw [if_pos ends, if_pos ends]
                exact refused
              rw [if_neg ends, if_neg ends]
              refine bind_iff fun copied => bind_iff fun ended => bind_iff fun first =>
                bind_iff fun joined => bind_iff fun second => bind_iff fun full => ?_
              by_cases closed : writable = false
              · rw [if_pos closed, if_pos closed]
                exact refused
              rw [if_neg closed, if_neg closed]
              refine bind_iff fun text => ?_
              simp only [Option.bind_eq_bind, Option.bind_eq_some_iff,
                printLoop_masks masks (by omega : 0 + count ≤ count), Nat.zero_add, Nat.zero_le,
                true_implies]
              constructor
              · rintro ⟨printed, ⟨prints, all⟩, returned⟩
                exact ⟨⟨printed, prints, returned⟩, fun _ => all⟩
              · rintro ⟨⟨printed, prints, returned⟩, all⟩
                obtain ⟨rfl, -⟩ := Prod.mk.inj (Option.some.inj returned)
                exact ⟨printed, ⟨prints, all rfl⟩, returned⟩

theorem printLoop_list {texts : List Bytes} {line : Nat} {text : Bytes} {left : Nat} :
    ∀ {i : Nat}, i + left = texts.length →
      printLoop (texts[·]?) line text i left = some ((texts.set line text).drop i) := by
  induction left with
  | zero =>
      intro i whole
      rw [printLoop, List.drop_of_length_le (by simp; omega)]
  | succ left ih =>
      intro i whole
      have inside : i < (texts.set line text).length := by
        rw [List.length_set]
        omega
      rw [printLoop, ih (by omega), List.drop_eq_getElem_cons inside, List.getElem_set]
      by_cases own : i = line
      · simp [own]
      · have apart : line ≠ i := fun same => own same.symm
        simp [own, apart, List.getElem?_eq_getElem (by omega : i < texts.length)]

theorem tamperLines_list (log : Option Bytes) :
    tamperLines ((localLogReadAll log)[·]?) (localLogReadAll log).length writable newLine log line
      newValue = localLogSimulateTamper writable newLine log line newValue := by
  unfold tamperLines localLogSimulateTamper
  by_cases outside : line < 0 ∨ ((localLogReadAll log).length : Int) ≤ line
  · rw [if_pos outside, if_pos outside]
  obtain ⟨orig, here⟩ : ∃ orig, (localLogReadAll log)[line.toNat]? = some orig :=
    ⟨_, List.getElem?_eq_getElem (by omega)⟩
  have prints : ∀ text, printLoop ((localLogReadAll log)[·]?) line.toNat text 0
      (localLogReadAll log).length = some ((localLogReadAll log).set line.toNat text) :=
    fun text => printLoop_list (by omega)
  have found : (fun i : Nat => (localLogReadAll log)[i]?) line.toNat = some orig := here
  rw [if_neg outside, if_neg outside, found, List.getD_eq_getElem?_getD, here, Option.getD_some,
    Option.bind_eq_bind, Option.bind_some]
  dsimp only
  cases hash : strstr (ascii "\"hash\"") orig with
  | none => rfl
  | some _ =>
      cases findKey orig "\"command\":\"" 11 with
      | none => rfl
      | some cmdPos => simp only [Option.bind_eq_bind, Option.bind_some, prints]

theorem checkLoop_list {texts : List Bytes} {sha256 : Bytes → Digest} {overflow : Overflow}
    {storedHash : Nat → CharArray hashHexSize} {left : Nat} :
    ∀ {i : Nat} {report : IntegrityReport}, i + left = texts.length →
      checkLoop (texts[·]?) sha256 overflow storedHash i left report =
        integrityLoop sha256 overflow storedHash i report (texts.drop i) := by
  induction left with
  | zero =>
      intro i report whole
      rw [checkLoop, List.drop_of_length_le (by omega), integrityLoop]
  | succ left ih =>
      intro i report whole
      have inside : i < texts.length := by omega
      rw [checkLoop, List.drop_eq_getElem_cons inside, integrityLoop,
        List.getElem?_eq_getElem inside, Option.bind_eq_bind, Option.bind_some]
      simp only [ih (by omega : i + 1 + left = texts.length)]

end Commands

theorem LogCache.Holds.masks {lines : List Bytes} (holds : cache.Holds strdup lines) :
    Masks cache.cachedCount strdup cache.line (lines[·]?) := by
  intro i inside
  rw [holds.count] at inside
  exact holds.reads i inside

def changedLog (writable : Bool) (newLine : CharArray lineBufferSize) (log : Option Bytes)
    (tamperLine : Int) (tamperValue : Bytes) : Option (Option Bytes) :=
  if 0 ≤ tamperLine ∧ tamperLine < (localLogReadAll log).length then
    (localLogSimulateTamper writable newLine log tamperLine tamperValue).map (·.2)
  else some log

/-- The pointers of each reading that the command goes through: without a line to change those of
the first reading, and otherwise of the second that of the line, the other ones when they are
written back, and those of the third. -/
inductive Follows (writable : Bool) (newLine : CharArray lineBufferSize) (log : Option Bytes)
    (line : Int) (newValue : Bytes) : Nat → Nat → Prop
  | checks {i} : ¬(0 ≤ line ∧ line < (localLogReadAll log).length) →
      i < (localLogReadAll log).length → Follows writable newLine log line newValue 0 i
  | tampers : 0 ≤ line ∧ line < (localLogReadAll log).length →
      Follows writable newLine log line newValue 1 line.toNat
  | prints {i after} : 0 ≤ line ∧ line < (localLogReadAll log).length →
      localLogSimulateTamper writable newLine log line newValue = some (0, after) →
      i < (localLogReadAll log).length → i ≠ line.toNat →
      Follows writable newLine log line newValue 1 i
  | rechecks {i rc after} : 0 ≤ line ∧ line < (localLogReadAll log).length →
      localLogSimulateTamper writable newLine log line newValue = some (rc, after) →
      i < (localLogReadAll after).length → Follows writable newLine log line newValue 2 i

section Specifications

variable {writable : Bool} {newLine : CharArray lineBufferSize} {next : LogCache}
  {after : Option Bytes} {rc : Int} {line tamperLine : Int} {newValue tamperValue : Bytes}
  {sha256 : Bytes → Digest} {overflow : Overflow} {check : GatewayCheck}
  {storedHash : Nat → CharArray hashHexSize} {allocates : Nat → Nat → Bool} {argv : List Bytes}
  {result : Int × IntegrityReport × Option Bytes}

theorem tamperAndTest_args :
    tamperAndTest sha256 overflow storedHash writable newLine argv log =
      (integrityTestArgs overflow argv).bind fun args =>
        (changedLog writable newLine log args.1 args.2).bind fun log =>
          (integrityTest sha256 overflow storedHash log).bind fun report =>
            some (report.rc, report, log) := by
  have split : ∀ (chosen : Prop) [Decidable chosen] (tampered : Option (Int × Option Bytes))
      (finish : Option Bytes → Option (Int × IntegrityReport × Option Bytes)),
      (if chosen then tampered.map (·.2) else some log).bind finish =
        if chosen then tampered.bind (finish ·.2) else finish log := by
    intro chosen _ tampered finish
    by_cases holds : chosen
    · rw [if_pos holds, if_pos holds]
      cases tampered <;> rfl
    · rw [if_neg holds, if_neg holds, Option.bind_some]
  match argv with
  | [] => simp [tamperAndTest, integrityTestArgs, changedLog]
  | [first] =>
      cases parsed : atoi overflow first <;>
        simp [tamperAndTest, integrityTestArgs, changedLog, split, parsed]
  | first :: second :: _ =>
      cases parsed : atoi overflow first <;>
        simp [tamperAndTest, integrityTestArgs, changedLog, split, parsed]

theorem LogCache.Owned.simulateTamper (owned : cache.Owned) (strdup : Nat → Bool)
    (writable : Bool) (newLine : CharArray lineBufferSize) (log : Option Bytes) (line : Int)
    (newValue : Bytes) :
    ∃ filled : LogCache, filled.Holds strdup (localLogReadAll log) ∧ ∀ next rc after,
      cache.simulateTamper strdup writable newLine log line newValue = some (next, rc, after) ↔
        filled = next ∧ localLogSimulateTamper writable newLine log line newValue = some (rc, after) ∧
          (0 ≤ line → line < (localLogReadAll log).length → strdup line.toNat = true ∧
            (rc = 0 → ∀ i < (localLogReadAll log).length, i ≠ line.toNat → strdup i = true)) := by
  obtain ⟨filled, reads, holds⟩ := owned.readAll strdup log
  refine ⟨filled, holds, fun next rc after => ?_⟩
  rw [← tamperLines_list, ← holds.count, ← tamperLines_masks holds.masks, LogCache.simulateTamper, reads,
    Option.bind_eq_bind, Option.bind_some, Option.bind_eq_bind, Option.bind_eq_some_iff]
  constructor
  · rintro ⟨⟨number, changed⟩, tampers, returned⟩
    obtain ⟨rfl, rfl, rfl⟩ : filled = next ∧ number = rc ∧ changed = after := by simpa using returned
    exact ⟨rfl, tampers⟩
  · rintro ⟨rfl, tampers⟩
    exact ⟨_, tampers, rfl⟩

theorem LogCache.Owned.readings (owned : cache.Owned)
    (ran : cache.readings allocates writable newLine log tamperLine tamperValue = some (next, after)) :
    changedLog writable newLine log tamperLine tamperValue = some after ∧
      (∀ i, Follows writable newLine log tamperLine tamperValue 1 i → allocates 1 i = true) ∧
      ∃ last, next.Holds (allocates last) (localLogReadAll after) ∧
        (∀ i < (localLogReadAll after).length,
          Follows writable newLine log tamperLine tamperValue last i) ∧
        ∀ reading i, Follows writable newLine log tamperLine tamperValue reading i →
          reading = 1 ∨ reading = last ∧ i < (localLogReadAll after).length := by
  obtain ⟨filled, reads, holds⟩ := owned.readAll (allocates 0) log
  rw [LogCache.readings, reads, Option.bind_eq_bind, Option.bind_some, holds.count] at ran
  rw [changedLog]
  by_cases chosen : 0 ≤ tamperLine ∧ tamperLine < (localLogReadAll log).length
  · rw [if_pos chosen] at ran ⊢
    obtain ⟨⟨second, rc, changed⟩, tampers, ran⟩ := Option.bind_eq_some_iff.mp ran
    obtain ⟨held, heldHolds, simulates⟩ :=
      holds.toOwned.simulateTamper (allocates 1) writable newLine log tamperLine tamperValue
    obtain ⟨rfl, tampered, there⟩ := (simulates second rc changed).mp tampers
    obtain ⟨third, rereads, last⟩ := heldHolds.toOwned.readAll (allocates 2) changed
    obtain ⟨rfl, rfl⟩ : third = next ∧ changed = after := by simpa [rereads] using ran
    obtain ⟨own, others⟩ := there chosen.1 chosen.2
    refine ⟨by rw [tampered, Option.map_some], fun i follows => ?_, 2, last,
      fun i inside => .rechecks chosen tampered inside, fun reading i follows => ?_⟩
    · cases follows with
      | tampers _ => exact own
      | prints _ same inside apart =>
          obtain ⟨rfl, -⟩ := Prod.mk.inj (Option.some.inj (tampered.symm.trans same))
          exact others rfl i inside apart
    · cases follows with
      | checks unchosen _ => exact absurd chosen unchosen
      | tampers _ | prints _ _ _ _ => exact Or.inl rfl
      | rechecks _ same inside =>
          obtain ⟨-, rfl⟩ := Prod.mk.inj (Option.some.inj (tampered.symm.trans same))
          exact Or.inr ⟨rfl, inside⟩
  · rw [if_neg chosen] at ran ⊢
    obtain ⟨rfl, rfl⟩ : filled = next ∧ log = after := by simpa using ran
    refine ⟨rfl, fun i follows => ?_, 0, holds, fun i inside => .checks chosen inside,
      fun reading i follows => ?_⟩
    · cases follows with
      | tampers already | prints already _ _ _ => exact absurd already chosen
    · cases follows with
      | checks _ inside => exact Or.inr ⟨rfl, inside⟩
      | tampers already | prints already _ _ _ | rechecks already _ _ => exact absurd already chosen

theorem LogCache.Owned.rereads (owned : cache.Owned)
    (there : ∀ i, Follows writable newLine log tamperLine tamperValue 1 i → allocates 1 i = true)
    (ran : changedLog writable newLine log tamperLine tamperValue = some after) :
    ∃ next, cache.readings allocates writable newLine log tamperLine tamperValue =
      some (next, after) := by
  obtain ⟨filled, reads, holds⟩ := owned.readAll (allocates 0) log
  rw [LogCache.readings, reads, Option.bind_eq_bind, Option.bind_some, holds.count]
  rw [changedLog] at ran
  by_cases chosen : 0 ≤ tamperLine ∧ tamperLine < (localLogReadAll log).length
  · rw [if_pos chosen] at ran ⊢
    obtain ⟨⟨rc, changed⟩, tampered, rfl⟩ := Option.map_eq_some_iff.mp ran
    obtain ⟨held, heldHolds, simulates⟩ :=
      holds.toOwned.simulateTamper (allocates 1) writable newLine log tamperLine tamperValue
    have tampers := (simulates held rc changed).mpr ⟨rfl, tampered, fun _ _ =>
      ⟨there _ (.tampers chosen), fun zero i inside apart =>
        there i (.prints chosen (by rw [tampered, zero]) inside apart)⟩⟩
    obtain ⟨third, rereads, -⟩ := heldHolds.toOwned.readAll (allocates 2) changed
    exact ⟨third, by simp [tampers, rereads]⟩
  · rw [if_neg chosen] at ran ⊢
    obtain rfl := Option.some.inj ran
    exact ⟨filled, rfl⟩

theorem LogCache.Owned.integrityTest (owned : cache.Owned)
    (ran : cache.integrityTest sha256 overflow check storedHash allocates writable newLine argv log =
      some (next, result)) :
    next.Owned ∧ cmdIntegrityTest sha256 overflow check storedHash writable newLine argv log =
        some result ∧
      (∀ args ∈ integrityTestArgs overflow argv, ∀ reading i,
        Follows writable newLine log args.1 args.2 reading i → allocates reading i = true) ∧
      ∀ i text, (localLogReadAll result.2.2)[i]? = some text → next.line i = some text := by
  rw [LogCache.integrityTest] at ran
  obtain ⟨answered, asked, ran⟩ := Option.bind_eq_some_iff.mp ran
  obtain ⟨⟨tamperLine, tamperValue⟩, parsed, ran⟩ := Option.bind_eq_some_iff.mp ran
  obtain ⟨⟨last, changed⟩, changes, ran⟩ := Option.bind_eq_some_iff.mp ran
  obtain ⟨final, checks, returned⟩ := Option.bind_eq_some_iff.mp ran
  obtain ⟨rfl, rfl⟩ : last = next ∧ (final.rc, final, changed) = result := by simpa using returned
  obtain ⟨same, there, reading, holds, -, follows⟩ := owned.readings changes
  obtain ⟨listed, read⟩ := (checkLoop_masks holds.masks (by omega)).mp checks
  rw [checkLoop_list (by rw [holds.count, Nat.zero_add]), List.drop_zero] at listed
  refine ⟨holds.toOwned, ?_, ?_, fun i text here => ?_⟩
  · rw [cmdIntegrityTest, asked, Option.bind_eq_bind, Option.bind_some, tamperAndTest_args, parsed,
      Option.bind_some, same, Option.bind_some, BlockchainAuditor.integrityTest, listed,
      Option.bind_some]
  · rintro args isArgs turn i followed
    obtain rfl := Option.some.inj (parsed.symm.trans isArgs)
    rcases follows turn i followed with rfl | ⟨rfl, inside⟩
    · exact there i followed
    · exact read i (Nat.zero_le i) (by rw [holds.count, Nat.zero_add]; exact inside)
  · obtain ⟨inside, -⟩ := List.getElem?_eq_some_iff.mp here
    have kept := read i (Nat.zero_le i) (by rw [holds.count, Nat.zero_add]; exact inside)
    exact (holds.masks.eq_some_iff (by rw [holds.count]; exact inside)).mpr ⟨here, kept⟩

theorem LogCache.Owned.integrityTests (owned : cache.Owned)
    (there : ∀ args ∈ integrityTestArgs overflow argv, ∀ reading i,
      Follows writable newLine log args.1 args.2 reading i → allocates reading i = true)
    (ran : cmdIntegrityTest sha256 overflow check storedHash writable newLine argv log = some result) :
    ∃ next, cache.integrityTest sha256 overflow check storedHash allocates writable newLine argv log =
      some (next, result) := by
  obtain ⟨answered, asked, ran⟩ := Option.bind_eq_some_iff.mp ran
  rw [tamperAndTest_args] at ran
  obtain ⟨⟨tamperLine, tamperValue⟩, parsed, ran⟩ := Option.bind_eq_some_iff.mp ran
  obtain ⟨changed, changes, ran⟩ := Option.bind_eq_some_iff.mp ran
  obtain ⟨final, checks, returned⟩ := Option.bind_eq_some_iff.mp ran
  obtain rfl := Option.some.inj returned
  have kept := there _ parsed
  obtain ⟨next, reads⟩ := owned.rereads (kept 1) changes
  obtain ⟨-, -, reading, holds, follows, -⟩ := owned.readings reads
  have found : checkLoop next.line sha256 overflow storedHash 0 next.cachedCount ⟨[], 0, 0⟩ =
      some final := by
    apply (checkLoop_masks holds.masks (by omega)).mpr
    rw [checkLoop_list (by rw [holds.count, Nat.zero_add]), List.drop_zero]
    refine ⟨checks, fun k _ below => kept reading k (follows k ?_)⟩
    rwa [holds.count, Nat.zero_add] at below
  refine ⟨next, ?_⟩
  rw [LogCache.integrityTest, asked, Option.bind_eq_bind, Option.bind_some, parsed]
  simp [reads, found]

end Specifications

/-! Any calls in any order, each with the log that it finds and the memory that there is. -/

inductive LogCall
  | readAll (strdup : Nat → Bool) (log : Option Bytes)
  | simulateTamper (strdup : Nat → Bool) (writable : Bool) (newLine : CharArray lineBufferSize)
      (log : Option Bytes) (line : Int) (newValue : Bytes)
  | integrityTest (check : GatewayCheck) (storedHash : Nat → CharArray hashHexSize)
      (strdup : Nat → Nat → Bool) (writable : Bool) (newLine : CharArray lineBufferSize)
      (argv : List Bytes) (log : Option Bytes)
  | destroy

section Calls

variable (sha256 : Bytes → Digest) (overflow : Overflow)

def LogCall.apply : LogCall → LogCache → Option LogCache
  | .readAll strdup log, cache => cache.readAll strdup log
  | .simulateTamper strdup writable newLine log line newValue, cache => do
    return (← cache.simulateTamper strdup writable newLine log line newValue).1
  | .integrityTest check storedHash strdup writable newLine argv log, cache => do
    return (← cache.integrityTest sha256 overflow check storedHash strdup writable newLine argv log).1
  | .destroy, cache => cache.destroy

def logCalls : System LogCache LogCall where
  start cache := cache = LogCache.start
  step cache call next := call.apply sha256 overflow cache = some next

end Calls

variable {sha256 : Bytes → Digest} {overflow : Overflow}

theorem logCalls_owned {call : LogCall} {next : LogCache} (owned : cache.Owned)
    (applied : call.apply sha256 overflow cache = some next) : next.Owned := by
  cases call with
  | readAll strdup log =>
      obtain ⟨filled, reads, holds⟩ := owned.readAll strdup log
      obtain rfl := Option.some.inj (reads.symm.trans applied)
      exact holds.toOwned
  | simulateTamper strdup writable newLine log line newValue =>
      obtain ⟨⟨last, rc, after⟩, ran, same⟩ := Option.bind_eq_some_iff.mp applied
      obtain rfl : last = next := by simpa using same
      obtain ⟨filled, holds, simulates⟩ :=
        owned.simulateTamper strdup writable newLine log line newValue
      exact ((simulates last rc after).mp ran).1 ▸ holds.toOwned
  | integrityTest check storedHash strdup writable newLine argv log =>
      obtain ⟨⟨last, result⟩, ran, same⟩ := Option.bind_eq_some_iff.mp applied
      obtain rfl : last = next := by simpa using same
      exact (owned.integrityTest ran).1
  | destroy =>
      obtain ⟨freed, frees, still, -, -⟩ := owned.destroy
      obtain rfl := Option.some.inj (frees.symm.trans applied)
      exact still

theorem reachable_owned (reachable : (logCalls sha256 overflow).Reachable cache) : cache.Owned :=
  reachable.invariant LogCache.Owned (fun _ started => started ▸ start_owned)
    fun _ _ _ owned applied => logCalls_owned owned applied

/-- After any calls no block is lost or has two pointers, the next reading frees what there is and gets
the lines of its file, and `local_log_destroy` leaves nothing. -/
theorem logCalls_safe (reachable : (logCalls sha256 overflow).Reachable cache) :
    cache.memory.OwnedBy cache.pointers ∧
      (∀ strdup log, ∃ next, cache.readAll strdup log = some next ∧
        next.cachedCount = (localLogReadAll log).length ∧
        ∀ i text, (localLogReadAll log)[i]? = some text →
          next.line i = if strdup i then some text else none) ∧
      ∃ last, cache.destroy = some last ∧ ∀ ref, ¬last.memory.Live ref := by
  have owned := reachable_owned reachable
  refine ⟨owned.blocks, fun strdup log => ?_, ?_⟩
  · obtain ⟨next, reads, holds⟩ := owned.readAll strdup log
    refine ⟨next, reads, holds.count, fun i text here => ?_⟩
    obtain ⟨inside, -⟩ := List.getElem?_eq_some_iff.mp here
    rw [holds.reads i inside, here]
  · obtain ⟨last, frees, -, -, empty⟩ := owned.destroy
    exact ⟨last, frees, empty⟩

theorem idLog_safe : ∃ cache : LogCache, cache.line 0 = some (idLine "id") ∧
    cache.memory.OwnedBy cache.pointers ∧
      (∀ strdup log, ∃ next, cache.readAll strdup log = some next ∧
        next.cachedCount = (localLogReadAll log).length ∧
        ∀ i text, (localLogReadAll log)[i]? = some text →
          next.line i = if strdup i then some text else none) ∧
      ∃ last, cache.destroy = some last ∧ ∀ ref, ¬last.memory.Live ref := by
  obtain ⟨cache, reads, holds⟩ :=
    start_owned.readAll (fun _ => true) (some (fileText [idLine "id"]))
  have read := holds.reads
  rw [idLog_read] at read
  have reachable : (logCalls (fun _ => idDigest) fun _ => none).Reachable cache :=
    ⟨LogCache.start, [.readAll (fun _ => true) (some (fileText [idLine "id"]))], rfl, .single reads⟩
  exact ⟨cache, read 0 Nat.one_pos, logCalls_safe reachable⟩

/-- Through the pointers the command computes what it computes on the lines, unless it follows one
that is null. -/
theorem integrityTest_throughPointers (reachable : (logCalls sha256 overflow).Reachable cache)
    (check : GatewayCheck) (storedHash : Nat → CharArray hashHexSize) (allocates : Nat → Nat → Bool)
    (writable : Bool) (newLine : CharArray lineBufferSize) (argv : List Bytes) (log : Option Bytes)
    (result : Int × IntegrityReport × Option Bytes) :
    ((∃ next, cache.integrityTest sha256 overflow check storedHash allocates writable newLine argv log =
        some (next, result)) ↔
      cmdIntegrityTest sha256 overflow check storedHash writable newLine argv log = some result ∧
        ∀ args ∈ integrityTestArgs overflow argv, ∀ reading i,
          Follows writable newLine log args.1 args.2 reading i → allocates reading i = true) ∧
      ∀ next, cache.integrityTest sha256 overflow check storedHash allocates writable newLine argv log =
        some (next, result) →
          ∀ i text, (localLogReadAll result.2.2)[i]? = some text → next.line i = some text := by
  have owned := reachable_owned reachable
  refine ⟨⟨?_, ?_⟩, fun next ran => (owned.integrityTest ran).2.2.2⟩
  · rintro ⟨next, ran⟩
    obtain ⟨-, same, there, -⟩ := owned.integrityTest ran
    exact ⟨same, there⟩
  · rintro ⟨same, there⟩
    exact owned.integrityTests there same

theorem lsLog_read : localLogReadAll (some (fileText [idLine "ls"])) = [idLine "ls"] := by
  have plain : ∀ line ∈ [idLine "ls"], Plain line := by
    rw [List.forall_mem_singleton]
    exact ⟨by decide +kernel, by decide +kernel⟩
  apply (readLines_fileText_iff (by decide) plain).mpr
  apply readBack_of_short _ (by decide)
  rw [List.forall_mem_singleton]
  decide +kernel

theorem lsLog_reported : ∃ report, integrityTest idSha256 (fun _ => none) (fun _ => .zero)
    (some (fileText [idLine "ls"])) = some report ∧ report.rc = 1 := by
  have nulFree : (0 : UInt8) ∉ idLine "ls" := by decide +kernel
  have decodes : (auditEventFromJson (fun _ => none) (idLine "ls")).isSome := by
    rw [lsLine_decodes]
    rfl
  obtain ⟨verdict, checks⟩ := Option.isSome_iff_exists.mp
    ((@checkLine_isSome idSha256 _ _ nulFree .zero).mpr decodes)
  have judged : lineVerdicts idSha256 (fun _ => none) (fun _ => .zero) 0
      (localLogReadAll (some (fileText [idLine "ls"]))) = some [verdict] := by
    rw [lsLog_read, lineVerdicts, checks]
    rfl
  obtain ⟨report, tested, verdicts⟩ := integrityTest_verdicts.mpr judged
  refine ⟨report, tested, (integrityTest_rc tested).mpr ⟨verdict, by simp [verdicts], ?_⟩⟩
  rintro rfl
  exact lsLine_forged ((checkLine_verified_iff nulFree .zero).mp checks).1

theorem lsTamper_result : ∃ report,
    cmdIntegrityTest idSha256 (fun _ => none) offlineCheck (fun _ => .zero) true .zero
      [ascii "0", ascii "ls"] (some (fileText [idLine "id"])) =
        some (1, report, some (fileText [idLine "ls"])) := by
  obtain ⟨report, tested, rc⟩ := lsLog_reported
  have arguments : integrityTestArgs (fun _ => none) [ascii "0", ascii "ls"] =
    some (0, ascii "ls") := by decide
  have changes : changedLog true .zero (some (fileText [idLine "id"])) 0 (ascii "ls") =
      some (some (fileText [idLine "ls"])) := by
    have here : (localLogReadAll (some (fileText [idLine "id"])))[0]? = some (idLine "id") := by
      rw [idLog_read]
      rfl
    have found : withCommand (idLine "id") (ascii "ls") = some (idLine "ls") := by decide +kernel
    have whole : (idLine "ls").take (lineBufferSize - 1) = idLine "ls" :=
      List.take_of_length_le (by decide +kernel)
    have valueFree : (0 : UInt8) ∉ ascii "ls" := by decide
    have simulates : localLogSimulateTamper true .zero _ ((0 : Nat) : Int) (ascii "ls") = some _ :=
      localLogSimulateTamper_genuine valueFree here (idLine_own (Or.inl rfl))
    rw [found, idLog_read] at simulates
    dsimp only at simulates
    rw [if_pos rfl, List.set_cons_zero, whole, Int.natCast_zero] at simulates
    rw [changedLog, idLog_read, if_pos (by decide), simulates, Option.map_some]
  refine ⟨report, ?_⟩
  rw [cmdIntegrityTest, offlineCheck.run_eq, offlineCheck_fails, tamperAndTest_args, arguments,
    Option.map_some, Option.bind_eq_bind, Option.bind_some, Option.bind_some, changes,
    Option.bind_some, tested, Option.bind_some, rc]

theorem idLog_throughPointers : ∃ next report,
    LogCache.start.integrityTest idSha256 (fun _ => none) offlineCheck (fun _ => .zero)
      (fun _ _ => true) true .zero [ascii "0", ascii "ls"] (some (fileText [idLine "id"])) =
        some (next, 1, report, some (fileText [idLine "ls"])) ∧
      ∀ i text, (localLogReadAll (some (fileText [idLine "ls"])))[i]? = some text →
        next.line i = some text := by
  obtain ⟨report, ran⟩ := lsTamper_result
  have reachable : (logCalls idSha256 fun _ => none).Reachable LogCache.start :=
    ⟨LogCache.start, [], rfl, .refl _⟩
  obtain ⟨agree, lines⟩ := integrityTest_throughPointers reachable offlineCheck (fun _ => .zero)
    (fun _ _ => true) true .zero [ascii "0", ascii "ls"] (some (fileText [idLine "id"]))
    (1, report, some (fileText [idLine "ls"]))
  obtain ⟨next, tested⟩ := agree.mpr ⟨ran, fun _ _ _ _ _ => rfl⟩
  exact ⟨next, report, tested, lines next tested⟩

end BlockchainAuditor
