import BlockchainAuditor.IntegerText
import Mathlib.Data.Int.Interval

/-! The process monitor of `proc_monitor.c`: its growing set of pids, and the polls of
`/proc` that compare one listing with the one before. -/

namespace BlockchainAuditor

open CStrings

structure ProcMonitor where
  pids : List Int32
  count : Int32
  capacity : Int32
  running : Bool
  intervalMs : Int32

def ProcMonitor.zero : ProcMonitor where
  pids := []
  count := 0
  capacity := 0
  running := false
  intervalMs := 0

def procMonitorInit (intervalMs : Int32) : ProcMonitor :=
  { ProcMonitor.zero with intervalMs := if 0 < intervalMs then intervalMs else 500 }

def pidSize : Nat := 4

abbrev Realloc := List Int32 → Nat → Option (List Int32)

/-- The new array starts with the old cells; what is behind them is anything. -/
def Realloc.Succeeds (realloc : Realloc) : Prop :=
  ∀ cells size, cells.length ≤ size / pidSize → ∃ grown, realloc cells size = some grown ∧
    cells <+: grown ∧ grown.length = size / pidSize

def scanPids (pid : Int32) : Nat → List Int32 → Option Bool
  | 0, _ => some false
  | _ + 1, [] => none
  | left + 1, cell :: cells => if cell = pid then some true else scanPids pid left cells

def pidSetContains (pm : ProcMonitor) (pid : Int32) : Option Bool :=
  scanPids pid pm.count.toInt.toNat pm.pids

section Polling

variable (realloc : Realloc) (overflow : Overflow)

def appendPid (pm : ProcMonitor) (pid : Int32) : Option ProcMonitor := do
  let index := pm.count.toInt
  if 0 ≤ index ∧ index < pm.pids.length then
    let count ← narrow overflow (index + 1)
    some { pm with pids := pm.pids.set index.toNat pid, count }
  else none

def newCapacity (capacity : Int32) : Option Int32 :=
  if capacity ≠ 0 then narrow overflow (capacity.toInt * 2) else some 1024

def pidSetAdd (pm : ProcMonitor) (pid : Int32) : Option ProcMonitor :=
  if pm.capacity ≤ pm.count then do
    let newcap ← newCapacity overflow pm.capacity
    -- the product is a `size_t`
    match realloc pm.pids ((pidSize * newcap.toInt) % 2 ^ 64).toNat with
    | none => some pm
    | some np => appendPid overflow { pm with pids := np, capacity := newcap } pid
  else appendPid overflow pm pid

def atoi (text : Bytes) : Option Int32 := narrow overflow ((scanInteger (text ++ [0])).getD 0)

def startsWithDigit (name : Bytes) : Bool := name.head?.any isDigit

def addListing : List Bytes → ProcMonitor → Option ProcMonitor
  | [], pm => some pm
  | name :: names, pm =>
    if startsWithDigit name then do
      addListing names (← pidSetAdd realloc overflow pm (← atoi overflow name))
    else addListing names pm

/-- The loop of one poll: the set `current` at its end, and the pids that
`capture_new_process` was called with. -/
def pollListing (pm : ProcMonitor) : List Bytes → ProcMonitor →
    Option (ProcMonitor × List Int32)
  | [], current => some (current, [])
  | name :: names, current =>
    if startsWithDigit name then do
      let pid ← atoi overflow name
      let current ← pidSetAdd realloc overflow current pid
      let known ← pidSetContains pm pid
      let (current, captured) ← pollListing pm names current
      some (current, if known then captured else pid :: captured)
    else pollListing pm names current

def poll (pm : ProcMonitor) (names : List Bytes) : Option (ProcMonitor × List Int32) := do
  let (current, captured) ← pollListing realloc overflow pm names .zero
  some ({ pm with pids := current.pids, count := current.count, capacity := current.capacity },
    captured)

/-- The polls while `running` stays set and `opendir` succeeds: the monitor after each and
the pids that were new in it. -/
def polls : ProcMonitor → List (List Bytes) → Option (List (ProcMonitor × List Int32))
  | _, [] => some []
  | pm, names :: listings => do
    let (pm, captured) ← poll realloc overflow pm names
    some ((pm, captured) :: (← polls pm listings))

/-- `proc_monitor_start`, with what `readdir` gives before the first poll and in each. -/
def procMonitorStart (pm : ProcMonitor) (names : List Bytes) (listings : List (List Bytes)) :
    Option (ProcMonitor × List (ProcMonitor × List Int32)) := do
  let pm ← addListing realloc overflow names { pm with running := true }
  some (pm, ← polls realloc overflow pm listings)

end Polling

/-- The first `count` cells are `held`, and the array is no longer than doubling makes it. -/
structure Holds (pm : ProcMonitor) (held : List Int32) : Prop where
  cells : held <+: pm.pids
  count : pm.count = Int32.ofInt held.length
  capacity : pm.capacity = Int32.ofInt pm.pids.length
  doubled : pm.pids.length ≤ 1024 ∨ pm.pids.length ≤ 2 * held.length

theorem zero_holds : Holds .zero [] :=
  ⟨List.nil_prefix, rfl, rfl, Or.inl (by simp [ProcMonitor.zero])⟩

variable {realloc : Realloc} (overflow : Overflow) {pm : ProcMonitor} {held : List Int32}

theorem Holds.count_toInt (holds : Holds pm held) (small : held.length < 2 ^ 31) :
    pm.count.toInt = held.length := by
  rw [holds.count, ofInt_toInt small]

theorem Holds.capacity_toInt (holds : Holds pm held) (small : held.length ≤ 2 ^ 29) :
    pm.capacity.toInt = pm.pids.length := by
  have doubled := holds.doubled
  rw [holds.capacity, ofInt_toInt (by omega)]

theorem Holds.count_le (holds : Holds pm held) (small : held.length ≤ 2 ^ 29) :
    pm.count ≤ pm.capacity := by
  have inside := holds.cells.length_le
  rw [Int32.le_iff_toInt_le, holds.count_toInt (by omega), holds.capacity_toInt small]
  omega

theorem scanPids_eq (pid : Int32) {cells : List Int32} (front : held <+: cells) :
    scanPids pid held.length cells = some (decide (pid ∈ held)) := by
  induction held generalizing cells with
  | nil => simp [scanPids]
  | cons first rest ih =>
      obtain ⟨behind, rfl⟩ := front
      have later := ih (List.prefix_append rest behind)
      rw [List.cons_append, List.length_cons, scanPids, later]
      by_cases here : first = pid
      · simp [here]
      · simp [here, Ne.symm here]

theorem pidSetContains_eq (holds : Holds pm held) (small : held.length < 2 ^ 31) (pid : Int32) :
    pidSetContains pm pid = some (decide (pid ∈ held)) := by
  rw [pidSetContains, holds.count_toInt small, Int.toNat_natCast]
  exact scanPids_eq pid holds.cells

theorem appendPid_holds (holds : Holds pm held) (small : held.length ≤ 2 ^ 29)
    (room : held.length < pm.pids.length) (pid : Int32) :
    ∃ after, appendPid overflow pm pid = some after ∧ Holds after (held ++ [pid]) := by
  have index := holds.count_toInt (by omega)
  have next : narrow overflow ((held.length : Int) + 1) =
      some (Int32.ofInt (held ++ [pid]).length) := by
    have counted := narrow_inside overflow (by omega : held.length + 1 < 2 ^ 31)
    simpa using counted
  refine ⟨{ pm with pids := pm.pids.set held.length pid, count := Int32.ofInt (held ++ [pid]).length },
    ?_, ⟨?_, rfl, ?_, ?_⟩⟩
  · simp only [appendPid, index, next]
    rw [if_pos ⟨by omega, by omega⟩]
    rfl
  · obtain ⟨behind, split⟩ := holds.cells
    rw [← split, List.length_append] at room
    obtain ⟨first, rest, rfl⟩ := List.exists_cons_of_length_pos (by omega : 0 < behind.length)
    exact ⟨rest, by simp [← split]⟩
  · simp [holds.capacity]
  · have doubled := holds.doubled
    simp only [List.length_set, List.length_append, List.length_singleton]
    omega

theorem newCapacity_eq (holds : Holds pm held) (small : held.length ≤ 2 ^ 29)
    (full : pm.pids.length ≤ held.length) :
    ∃ size : Nat, newCapacity overflow pm.capacity = some (Int32.ofInt size) ∧
      held.length < size ∧ size < 2 ^ 31 ∧ (size ≤ 1024 ∨ size ≤ 2 * held.length) := by
  have capacity := holds.capacity_toInt small
  have inside := holds.cells.length_le
  by_cases empty : pm.capacity = 0
  · rw [empty, Int32.toInt_zero] at capacity
    exact ⟨1024, by simp [newCapacity, empty], by omega, by decide, Or.inl (le_refl _)⟩
  · have nonempty : pm.pids.length ≠ 0 := by
      intro none
      rw [none] at capacity
      exact empty (Int32.toInt_inj.mp capacity)
    have doubled : pm.capacity.toInt * 2 = (pm.pids.length * 2 : Nat) := by
      rw [capacity]
      push_cast
      rfl
    refine ⟨pm.pids.length * 2, ?_, by omega, by omega, Or.inr (by omega)⟩
    rw [newCapacity, if_pos empty, doubled, narrow_inside overflow (by omega)]

theorem pidSetAdd_holds (succeeds : realloc.Succeeds) (holds : Holds pm held)
    (small : held.length ≤ 2 ^ 29) (pid : Int32) :
    ∃ after, pidSetAdd realloc overflow pm pid = some after ∧ Holds after (held ++ [pid]) := by
  have count := holds.count_toInt (by omega)
  have capacity := holds.capacity_toInt small
  have inside := holds.cells.length_le
  by_cases room : held.length < pm.pids.length
  · obtain ⟨after, appended, fits⟩ := appendPid_holds overflow holds small room pid
    refine ⟨after, ?_, fits⟩
    rw [pidSetAdd, if_neg, appended]
    rw [Int32.le_iff_toInt_le, count, capacity]
    omega
  · have full : pm.capacity ≤ pm.count := by
      rw [Int32.le_iff_toInt_le, count, capacity]
      omega
    obtain ⟨size, newcap, longer, fits, doubled⟩ :=
      newCapacity_eq overflow holds small (by omega)
    have bytes : ((pidSize * (Int32.ofInt size).toInt) % 2 ^ 64).toNat = pidSize * size := by
      rw [ofInt_toInt fits, pidSize]
      omega
    have cells : pidSize * size / pidSize = size := Nat.mul_div_cancel_left size (by decide)
    obtain ⟨grown, allocated, keeps, length⟩ := succeeds pm.pids (pidSize * size) (by omega)
    rw [cells] at length
    have moved : Holds { pm with pids := grown, capacity := Int32.ofInt size } held :=
      ⟨holds.cells.trans keeps, holds.count, by rw [length], by rw [length]; exact doubled⟩
    obtain ⟨after, appended, afterHolds⟩ :=
      appendPid_holds overflow moved small (by rw [length]; exact longer) pid
    refine ⟨after, ?_, afterHolds⟩
    rw [pidSetAdd, if_pos full, newcap]
    simp only [Option.bind_eq_bind, Option.bind_some, bytes, allocated, appended]

/-- The largest pid that Linux ever gives out, its `PID_MAX_LIMIT`. -/
def pidMaxLimit : Nat := 4194304

/-- The directory of each process is named by its pid in decimal, and no other name in
`/proc` starts with a digit. -/
structure ProcListing (names : List Bytes) (pids : List Int32) : Prop where
  named : names.filter startsWithDigit = pids.map fun pid => formatInt pid.toInt
  distinct : pids.Nodup
  given : ∀ pid ∈ pids, 0 < pid.toInt ∧ pid.toInt ≤ pidMaxLimit

theorem ProcListing.length_le {names : List Bytes} {pids : List Int32}
    (listing : ProcListing names pids) : pids.length ≤ pidMaxLimit := by
  have injective : (pids.map fun pid => pid.toInt).Nodup :=
    listing.distinct.map fun _ _ same => Int32.toInt_inj.mp same
  have inside : (pids.map fun pid => pid.toInt).toFinset ⊆ Finset.Icc 1 (pidMaxLimit : Int) := by
    intro value member
    obtain ⟨pid, listed, rfl⟩ := List.mem_map.mp (List.mem_toFinset.mp member)
    obtain ⟨positive, bound⟩ := listing.given pid listed
    exact Finset.mem_Icc.mpr ⟨by omega, bound⟩
  have cards := Finset.card_le_card inside
  rw [List.toFinset_card_of_nodup injective, List.length_map, Int.card_Icc] at cards
  omega

theorem ProcListing.front {names front : List Bytes} {pids : List Int32}
    (listing : ProcListing names pids) (before : front <+: names) :
    ∃ listed, ProcListing front listed := by
  have piece : front.filter startsWithDigit <+: pids.map fun pid => formatInt pid.toInt :=
    listing.named ▸ before.filter startsWithDigit
  rw [List.prefix_map_iff] at piece
  obtain ⟨listed, early, named⟩ := piece
  exact ⟨listed, named, listing.distinct.sublist early.sublist,
    fun pid member => listing.given pid (early.subset member)⟩

theorem atoi_formatInt (pid : Int32) : atoi overflow (formatInt pid.toInt) = some pid := by
  have scanned := scanInteger_formatInt [] pid.toInt (by decide : isDigit 0 = false)
  rw [atoi, scanned]
  exact narrow_toInt overflow pid

theorem listing_holds (succeeds : realloc.Succeeds) {old : List Int32} (known : Holds pm old)
    (oldSmall : old.length < 2 ^ 31) {names : List Bytes} {pids : List Int32}
    (named : names.filter startsWithDigit = pids.map fun pid => formatInt pid.toInt)
    {current : ProcMonitor} (holds : Holds current held)
    (small : (held ++ pids).length ≤ 2 ^ 29) :
    ∃ after, addListing realloc overflow names current = some after ∧
      pollListing realloc overflow pm names current = some (after, pids.filter (· ∉ old)) ∧
      Holds after (held ++ pids) := by
  induction names generalizing pids current held with
  | nil =>
      obtain rfl : pids = [] := by simpa using named.symm
      exact ⟨current, rfl, rfl, by simpa using holds⟩
  | cons name names ih =>
      by_cases digits : startsWithDigit name = true
      · rw [List.filter_cons_of_pos digits] at named
        obtain ⟨pid, rest, rfl, pidName, restNames⟩ := List.map_eq_cons_iff.mp named.symm
        obtain ⟨middle, added, middleHolds⟩ :=
          pidSetAdd_holds overflow succeeds holds (by simp at small; omega) pid
        obtain ⟨after, loaded, polled, afterHolds⟩ :=
          ih restNames.symm middleHolds (by simpa using small)
        refine ⟨after, ?_, ?_, by simpa using afterHolds⟩
        · rw [addListing, if_pos digits, ← pidName, atoi_formatInt]
          simp only [Option.bind_eq_bind, Option.bind_some, added, loaded]
        · rw [pollListing, if_pos digits, ← pidName, atoi_formatInt]
          simp only [Option.bind_eq_bind, Option.bind_some, added,
            pidSetContains_eq known oldSmall, polled]
          by_cases reported : pid ∈ old
          · simp [reported]
          · simp [reported]
      · rw [List.filter_cons_of_neg digits] at named
        obtain ⟨after, loaded, polled, afterHolds⟩ := ih named holds small
        exact ⟨after, by rw [addListing, if_neg digits, loaded],
          by rw [pollListing, if_neg digits, polled], afterHolds⟩

def ProcMonitor.members (pm : ProcMonitor) : List Int32 := pm.pids.take pm.count.toInt.toNat

theorem Holds.members_eq (holds : Holds pm held) (small : held.length < 2 ^ 31) : pm.members = held := by
  rw [ProcMonitor.members, holds.count_toInt small, Int.toNat_natCast]
  exact (List.prefix_iff_eq_take.mp holds.cells).symm

structure Polled (realloc : Realloc) (overflow : Overflow) (before : ProcMonitor)
    (names : List Bytes) (old new : List Int32) (after : ProcMonitor) (captured : List Int32) :
    Prop where
  members : after.members = new
  bounded : after.count ≤ after.capacity
  within : ∀ front, front <+: names → ∃ current reported,
    pollListing realloc overflow before front .zero = some (current, reported) ∧
      current.count ≤ current.capacity
  captured : captured = new.filter (· ∉ old)

theorem poll_polled (succeeds : realloc.Succeeds) {old new : List Int32} {names : List Bytes}
    (known : Holds pm old) (oldSmall : old.length ≤ pidMaxLimit)
    (listing : ProcListing names new) :
    ∃ after, poll realloc overflow pm names = some (after, new.filter (· ∉ old)) ∧
      Holds after new ∧
      Polled realloc overflow pm names old new after (new.filter (· ∉ old)) := by
  have limit : pidMaxLimit = 4194304 := rfl
  have loop : ∀ front listed, ProcListing front listed → ∃ current,
      pollListing realloc overflow pm front .zero = some (current, listed.filter (· ∉ old)) ∧
        Holds current listed ∧ current.count ≤ current.capacity := by
    intro front listed frontListing
    have short := frontListing.length_le
    obtain ⟨current, _, read, holds⟩ := listing_holds overflow succeeds known
      (by omega) frontListing.named zero_holds (by rw [List.nil_append]; omega)
    exact ⟨current, read, holds, holds.count_le (by rw [List.nil_append]; omega)⟩
  have short := listing.length_le
  obtain ⟨current, read, holds, bounded⟩ := loop names new listing
  have afterHolds : Holds { pm with
      pids := current.pids, count := current.count, capacity := current.capacity } new :=
    ⟨holds.cells, holds.count, holds.capacity, holds.doubled⟩
  refine ⟨_, ?_, afterHolds, afterHolds.members_eq (by omega), bounded, ?_, rfl⟩
  · simp only [poll, read, Option.bind_eq_bind, Option.bind_some]
  · intro front before
    obtain ⟨listed, frontListing⟩ := listing.front before
    obtain ⟨middle, partly, _, inside⟩ := loop front listed frontListing
    exact ⟨middle, _, partly, inside⟩

theorem polls_polled (succeeds : realloc.Succeeds) {old : List Int32} (known : Holds pm old)
    (oldSmall : old.length ≤ pidMaxLimit) {listings : List (List Bytes)} {sets : List (List Int32)}
    (listed : List.Forall₂ ProcListing listings sets) :
    ∃ history, polls realloc overflow pm listings = some history ∧
      history.length = listings.length ∧
      ∀ (k : Nat) before earlier names new after captured,
        (pm :: history.map Prod.fst)[k]? = some before → (old :: sets)[k]? = some earlier →
        listings[k]? = some names → sets[k]? = some new → history[k]? = some (after, captured) →
        Polled realloc overflow before names earlier new after captured := by
  induction listed generalizing pm old with
  | nil => exact ⟨[], rfl, rfl, by simp⟩
  | @cons names new listings sets listing _ ih =>
      obtain ⟨after, read, holds, polled⟩ := poll_polled overflow succeeds known
        oldSmall listing
      obtain ⟨history, rest, length, later⟩ := ih holds listing.length_le
      refine ⟨(after, new.filter (· ∉ old)) :: history, ?_, by simp [length], ?_⟩
      · simp only [polls, read, rest, Option.bind_eq_bind, Option.bind_some]
      · intro k before earlier kNames kNew kAfter captured
        cases k with
        | zero =>
            simp only [List.getElem?_cons_zero, Option.some.injEq, Prod.mk.injEq]
            rintro rfl rfl rfl rfl ⟨rfl, rfl⟩
            exact polled
        | succ k =>
            simp only [List.map_cons, List.getElem?_cons_succ]
            exact later k before earlier kNames kNew kAfter captured

/-- Each poll reports, in the order of its listing, the pids that the one before did not list. -/
theorem procMonitor_reports (intervalMs : Int32) {names : List Bytes} {first : List Int32}
    {listings : List (List Bytes)} {sets : List (List Int32)} (succeeds : realloc.Succeeds)
    (initially : ProcListing names first) (listed : List.Forall₂ ProcListing listings sets) :
    ∃ start history, procMonitorStart realloc overflow (procMonitorInit intervalMs) names listings =
        some (start, history) ∧ start.members = first ∧ start.count ≤ start.capacity ∧
      (∀ front, front <+: names → ∃ current,
        addListing realloc overflow front { procMonitorInit intervalMs with running := true } =
          some current ∧ current.count ≤ current.capacity) ∧
      history.length = listings.length ∧
      ∀ (k : Nat) before earlier kNames new after captured,
        (start :: history.map Prod.fst)[k]? = some before → (first :: sets)[k]? = some earlier →
        listings[k]? = some kNames → sets[k]? = some new → history[k]? = some (after, captured) →
        Polled realloc overflow before kNames earlier new after captured := by
  have limit : pidMaxLimit = 4194304 := rfl
  have empty : Holds { procMonitorInit intervalMs with running := true } [] :=
    ⟨List.nil_prefix, rfl, rfl, zero_holds.doubled⟩
  have loop : ∀ front listed, ProcListing front listed → ∃ current,
      addListing realloc overflow front { procMonitorInit intervalMs with running := true } =
        some current ∧ Holds current listed ∧ current.count ≤ current.capacity := by
    intro front listed frontListing
    have short := frontListing.length_le
    obtain ⟨current, added, _, holds⟩ := listing_holds overflow succeeds zero_holds (by decide)
      frontListing.named empty (by rw [List.nil_append]; omega)
    exact ⟨current, added, holds, holds.count_le (by rw [List.nil_append]; omega)⟩
  have short := initially.length_le
  obtain ⟨start, added, holds, bounded⟩ := loop names first initially
  obtain ⟨history, read, length, polled⟩ := polls_polled overflow succeeds holds
    short listed
  refine ⟨start, history, ?_, holds.members_eq (by omega), bounded, ?_, length, polled⟩
  · simp only [procMonitorStart, added, read, Option.bind_eq_bind, Option.bind_some]
  · intro front before
    obtain ⟨listed, frontListing⟩ := initially.front before
    obtain ⟨current, partly, _, inside⟩ := loop front listed frontListing
    exact ⟨current, partly, inside⟩

def zeroFilled : Realloc := fun cells size =>
  some (cells.take (size / pidSize) ++ List.replicate (size / pidSize - cells.length) 0)

theorem zeroFilled_succeeds : zeroFilled.Succeeds := by
  intro cells size fits
  refine ⟨_, rfl, ?_, by simp; omega⟩
  rw [List.take_of_length_le fits]
  exact List.prefix_append _ _

theorem newProcess_reported : ∃ start after,
    procMonitorStart zeroFilled (fun _ => none) (procMonitorInit 200)
        [ascii "1", ascii "self", ascii "42"] [[ascii "1", ascii "57", ascii "uptime"]] =
      some (start, [(after, [57])]) ∧ after.members = [1, 57] := by
  have initially : ProcListing [ascii "1", ascii "self", ascii "42"] [1, 42] :=
    ⟨by decide, by decide, by
      rw [List.forall_mem_cons, List.forall_mem_singleton]
      decide⟩
  have later : ProcListing [ascii "1", ascii "57", ascii "uptime"] [1, 57] :=
    ⟨by decide, by decide, by
      rw [List.forall_mem_cons, List.forall_mem_singleton]
      decide⟩
  obtain ⟨start, history, started, _, _, _, length, polled⟩ :=
    procMonitor_reports (fun _ => none) 200 zeroFilled_succeeds initially (.cons later .nil)
  obtain ⟨⟨after, captured⟩, rfl⟩ := List.length_eq_one_iff.mp length
  have first := polled 0 _ _ _ _ _ _ rfl rfl rfl rfl rfl
  obtain rfl : captured = [57] := first.captured.trans (by decide)
  exact ⟨start, after, started, first.members⟩

end BlockchainAuditor
