import BlockchainAuditor.ProcMonitor

/-! The process monitor when memory is short: `pid_set_add` returns without the pid when `realloc`
fails, each call of it on its own. -/

namespace BlockchainAuditor

open CStrings

/-- The array is given, as `Realloc.Succeeds` has it, or there is none. -/
def Realloc.Documented (realloc : Realloc) : Prop :=
  ∀ cells size grown, cells.length ≤ size / pidSize → realloc cells size = some grown →
    cells <+: grown ∧ grown.length = size / pidSize

section Polling

variable (overflow : Overflow)

def addListingEach (reallocs : Nat → Realloc) : Nat → List Bytes → ProcMonitor → Option ProcMonitor
  | _, [], pm => some pm
  | i, name :: names, pm =>
    if startsWithDigit name then do
      let pm ← pidSetAdd (reallocs i) overflow pm (← atoi overflow name)
      addListingEach reallocs (i + 1) names pm
    else addListingEach reallocs (i + 1) names pm

def pollListingEach (reallocs : Nat → Realloc) (pm : ProcMonitor) :
    Nat → List Bytes → ProcMonitor → Option (ProcMonitor × List Int32)
  | _, [], current => some (current, [])
  | i, name :: names, current =>
    if startsWithDigit name then do
      let pid ← atoi overflow name
      let current ← pidSetAdd (reallocs i) overflow current pid
      let known ← pidSetContains pm pid
      let (current, captured) ← pollListingEach reallocs pm (i + 1) names current
      some (current, if known then captured else pid :: captured)
    else pollListingEach reallocs pm (i + 1) names current

def pollEach (reallocs : Nat → Realloc) (pm : ProcMonitor) (names : List Bytes) :
    Option (ProcMonitor × List Int32) := do
  let (current, captured) ← pollListingEach overflow reallocs pm 0 names .zero
  some ({ pm with pids := current.pids, count := current.count, capacity := current.capacity },
    captured)

def pollsEach (reallocs : Nat → Nat → Realloc) :
    Nat → ProcMonitor → List (List Bytes) → Option (List (ProcMonitor × List Int32))
  | _, _, [] => some []
  | k, pm, names :: listings => do
    let (pm, captured) ← pollEach overflow (reallocs k) pm names
    some ((pm, captured) :: (← pollsEach reallocs (k + 1) pm listings))

/-- `proc_monitor_start`; `reallocs k` serves the poll `k`. -/
def procMonitorStartEach (initial : Nat → Realloc) (reallocs : Nat → Nat → Realloc)
    (pm : ProcMonitor) (names : List Bytes) (listings : List (List Bytes)) :
    Option (ProcMonitor × List (ProcMonitor × List Int32)) := do
  let pm ← addListingEach overflow initial 0 names { pm with running := true }
  some (pm, ← pollsEach overflow reallocs 0 pm listings)

end Polling

variable (overflow : Overflow) {pm : ProcMonitor} {held : List Int32}

theorem addListingEach_same (realloc : Realloc) (names : List Bytes) :
    ∀ (i : Nat) (pm : ProcMonitor),
      addListingEach overflow (fun _ => realloc) i names pm = addListing realloc overflow names pm := by
  induction names with
  | nil => exact fun _ _ => rfl
  | cons name names ih =>
      intro i pm
      simp only [addListingEach, addListing, ih]

theorem pollListingEach_same (realloc : Realloc) (names : List Bytes) :
    ∀ (i : Nat) (current : ProcMonitor),
      pollListingEach overflow (fun _ => realloc) pm i names current =
        pollListing realloc overflow pm names current := by
  induction names with
  | nil => exact fun _ _ => rfl
  | cons name names ih =>
      intro i current
      simp only [pollListingEach, pollListing, ih]

theorem pollsEach_same (realloc : Realloc) (listings : List (List Bytes)) :
    ∀ (k : Nat) (pm : ProcMonitor),
      pollsEach overflow (fun _ _ => realloc) k pm listings = polls realloc overflow pm listings := by
  induction listings with
  | nil => exact fun _ _ => rfl
  | cons names listings ih =>
      intro k pm
      simp only [pollsEach, polls, pollEach, poll, pollListingEach_same, ih]

theorem procMonitorStartEach_same (realloc : Realloc) (names : List Bytes)
    (listings : List (List Bytes)) :
    procMonitorStartEach overflow (fun _ => realloc) (fun _ _ => realloc) pm names listings =
      procMonitorStart realloc overflow pm names listings := by
  simp only [procMonitorStartEach, procMonitorStart, addListingEach_same, pollsEach_same]

theorem pidSetAdd_short {realloc : Realloc} (documented : realloc.Documented) (holds : Holds pm held)
    (small : held.length ≤ 2 ^ 29) (pid : Int32) :
    ∃ after kept, pidSetAdd realloc overflow pm pid = some after ∧ kept.Sublist [pid] ∧
      Holds after (held ++ kept) := by
  have count := holds.count_toInt (by omega)
  have capacity := holds.capacity_toInt small
  have inside := holds.cells.length_le
  by_cases room : held.length < pm.pids.length
  · obtain ⟨after, appended, fits⟩ := appendPid_holds overflow holds small room pid
    refine ⟨after, [pid], ?_, List.Sublist.refl _, fits⟩
    rw [pidSetAdd, if_neg, appended]
    rw [Int32.le_iff_toInt_le, count, capacity]
    omega
  have full : pm.capacity ≤ pm.count := by
    rw [Int32.le_iff_toInt_le, count, capacity]
    omega
  obtain ⟨size, newcap, longer, fits, doubled⟩ := newCapacity_eq overflow holds small (by omega)
  have bytes : ((pidSize * (Int32.ofInt size).toInt) % 2 ^ 64).toNat = pidSize * size := by
    rw [ofInt_toInt fits, pidSize]
    omega
  have cells : pidSize * size / pidSize = size := Nat.mul_div_cancel_left size (by decide)
  cases allocated : realloc pm.pids (pidSize * size) with
  | none =>
      refine ⟨pm, [], ?_, List.nil_sublist _, by rwa [List.append_nil]⟩
      rw [pidSetAdd, if_pos full, newcap]
      simp only [Option.bind_eq_bind, Option.bind_some, bytes, allocated]
  | some grown =>
      obtain ⟨keeps, length⟩ := documented _ _ _ (by omega) allocated
      rw [cells] at length
      have moved : Holds { pm with pids := grown, capacity := Int32.ofInt size } held :=
        ⟨holds.cells.trans keeps, holds.count, by rw [length], by rw [length]; exact doubled⟩
      obtain ⟨after, appended, afterHolds⟩ :=
        appendPid_holds overflow moved small (by rw [length]; exact longer) pid
      refine ⟨after, [pid], ?_, List.Sublist.refl _, afterHolds⟩
      rw [pidSetAdd, if_pos full, newcap]
      simp only [Option.bind_eq_bind, Option.bind_some, bytes, allocated, appended]

theorem listing_short {reallocs : Nat → Realloc} (documented : ∀ i, (reallocs i).Documented)
    {old : List Int32} (known : Holds pm old) (oldSmall : old.length < 2 ^ 31) {names : List Bytes} :
    ∀ (i : Nat) {pids : List Int32} {current : ProcMonitor} {held : List Int32},
      names.filter startsWithDigit = (pids.map fun pid => formatInt pid.toInt) →
      Holds current held → (held ++ pids).length ≤ 2 ^ 29 →
      ∃ after kept, addListingEach overflow reallocs i names current = some after ∧
        pollListingEach overflow reallocs pm i names current =
          some (after, pids.filter (· ∉ old)) ∧
        kept.Sublist pids ∧ Holds after (held ++ kept) := by
  induction names with
  | nil =>
      intro i pids current held named holds _
      obtain rfl : pids = [] := by simpa using named.symm
      exact ⟨current, [], rfl, rfl, List.Sublist.refl _, by rwa [List.append_nil]⟩
  | cons name names ih =>
      intro i pids current held named holds small
      by_cases digits : startsWithDigit name = true
      · rw [List.filter_cons_of_pos digits] at named
        obtain ⟨pid, rest, rfl, pidName, restNames⟩ := List.map_eq_cons_iff.mp named.symm
        rw [List.length_append, List.length_cons] at small
        obtain ⟨middle, first, added, single, middleHolds⟩ :=
          pidSetAdd_short overflow (documented i) holds (by omega) pid
        have short := single.length_le
        obtain ⟨after, kept, loaded, polled, others, afterHolds⟩ := ih (i + 1) restNames.symm
          middleHolds (by simp only [List.length_append, List.length_singleton] at short ⊢; omega)
        refine ⟨after, first ++ kept, ?_, ?_, single.append others, by rwa [← List.append_assoc]⟩
        · rw [addListingEach, if_pos digits, ← pidName, atoi_formatInt]
          simp only [Option.bind_eq_bind, Option.bind_some, added, loaded]
        · rw [pollListingEach, if_pos digits, ← pidName, atoi_formatInt]
          simp only [Option.bind_eq_bind, Option.bind_some, added,
            pidSetContains_eq known oldSmall, polled]
          by_cases reported : pid ∈ old
          · simp [reported]
          · simp [reported]
      · rw [List.filter_cons_of_neg digits] at named
        obtain ⟨after, kept, loaded, polled, others, afterHolds⟩ := ih (i + 1) named holds small
        exact ⟨after, kept, by rw [addListingEach, if_neg digits, loaded],
          by rw [pollListingEach, if_neg digits, polled], others, afterHolds⟩

structure PolledShort (before : ProcMonitor) (earlier new : List Int32) (after : ProcMonitor)
    (reported : List Int32) : Prop where
  remembered : before.members.Sublist earlier
  members : after.members.Sublist new
  bounded : after.count ≤ after.capacity
  captured : reported = new.filter (· ∉ before.members)
  complete : ∀ pid ∈ new, pid ∉ earlier → pid ∈ reported

theorem poll_short {reallocs : Nat → Realloc} (documented : ∀ i, (reallocs i).Documented)
    {old earlier new : List Int32} {names : List Bytes} (known : Holds pm old)
    (remembered : old.Sublist earlier) (oldSmall : old.length ≤ pidMaxLimit)
    (listing : ProcListing names new) :
    ∃ after kept, pollEach overflow reallocs pm names = some (after, new.filter (· ∉ old)) ∧
      kept.Sublist new ∧ Holds after kept ∧
      PolledShort pm earlier new after (new.filter (· ∉ old)) := by
  have limit : pidMaxLimit = 4194304 := rfl
  have short := listing.length_le
  obtain ⟨current, kept, _, read, fewer, holds⟩ := listing_short overflow documented known
    (by omega) 0 listing.named zero_holds (by rw [List.nil_append]; omega)
  rw [List.nil_append] at holds
  have keptShort := fewer.length_le
  have afterHolds : Holds { pm with
      pids := current.pids, count := current.count, capacity := current.capacity } kept :=
    ⟨holds.cells, holds.count, holds.capacity, holds.doubled⟩
  have before := known.members_eq (by omega)
  refine ⟨_, kept, ?_, fewer, afterHolds, ?_⟩
  · simp only [pollEach, read, Option.bind_eq_bind, Option.bind_some]
  · refine ⟨by rwa [before], ?_, afterHolds.count_le (by omega), by rw [before], ?_⟩
    · rwa [afterHolds.members_eq (by omega)]
    · intro pid listed notEarlier
      have forgotten : pid ∉ old := fun member => notEarlier (remembered.subset member)
      simp [listed, forgotten]

theorem polls_short {reallocs : Nat → Nat → Realloc} (documented : ∀ k i, (reallocs k i).Documented)
    {listings : List (List Bytes)} {sets : List (List Int32)}
    (listed : List.Forall₂ ProcListing listings sets) :
    ∀ (turn : Nat) {pm : ProcMonitor} {old earlier : List Int32}, Holds pm old →
      old.Sublist earlier → old.length ≤ pidMaxLimit →
      ∃ history, pollsEach overflow reallocs turn pm listings = some history ∧
        history.length = listings.length ∧
        ∀ (k : Nat) before sooner new after captured,
          (pm :: history.map Prod.fst)[k]? = some before → (earlier :: sets)[k]? = some sooner →
          sets[k]? = some new → history[k]? = some (after, captured) →
          PolledShort before sooner new after captured := by
  induction listed with
  | nil => exact fun _ _ _ _ _ _ _ => ⟨[], rfl, rfl, by simp⟩
  | @cons names new listings sets listing _ ih =>
      intro turn pm old earlier known remembered oldSmall
      obtain ⟨after, kept, read, fewer, holds, polled⟩ := poll_short overflow
        (documented turn) known remembered oldSmall listing
      obtain ⟨history, rest, length, later⟩ :=
        ih (turn + 1) holds fewer (fewer.length_le.trans listing.length_le)
      refine ⟨(after, new.filter (· ∉ old)) :: history, ?_, by simp [length], ?_⟩
      · simp only [pollsEach, read, rest, Option.bind_eq_bind, Option.bind_some]
      · intro k before sooner kNew kAfter captured
        cases k with
        | zero =>
            simp only [List.getElem?_cons_zero, Option.some.injEq, Prod.mk.injEq]
            rintro rfl rfl rfl ⟨rfl, rfl⟩
            exact polled
        | succ k =>
            simp only [List.map_cons, List.getElem?_cons_succ]
            exact later k before sooner kNew kAfter captured

/-- However memory runs short, the monitor misses no process that its last listing did not have; what
it cannot remember it reports again. -/
theorem procMonitor_reportsShort (intervalMs : Int32) {names : List Bytes} {first : List Int32}
    {listings : List (List Bytes)} {sets : List (List Int32)} {initial : Nat → Realloc}
    {reallocs : Nat → Nat → Realloc} (initialDocumented : ∀ i, (initial i).Documented)
    (documented : ∀ k i, (reallocs k i).Documented) (initially : ProcListing names first)
    (listed : List.Forall₂ ProcListing listings sets) :
    ∃ start history, procMonitorStartEach overflow initial reallocs (procMonitorInit intervalMs) names
        listings = some (start, history) ∧ history.length = listings.length ∧
      ∀ (k : Nat) before earlier new after captured,
        (start :: history.map Prod.fst)[k]? = some before → (first :: sets)[k]? = some earlier →
        sets[k]? = some new → history[k]? = some (after, captured) →
        PolledShort before earlier new after captured := by
  have limit : pidMaxLimit = 4194304 := rfl
  have empty : Holds { procMonitorInit intervalMs with running := true } [] :=
    ⟨List.nil_prefix, rfl, rfl, zero_holds.doubled⟩
  have short := initially.length_le
  obtain ⟨start, kept, added, _, fewer, holds⟩ := listing_short overflow initialDocumented zero_holds
    (by decide) 0 initially.named empty (by rw [List.nil_append]; omega)
  rw [List.nil_append] at holds
  obtain ⟨history, read, length, polled⟩ := polls_short overflow documented listed 0 holds fewer
    (fewer.length_le.trans short)
  refine ⟨start, history, ?_, length, polled⟩
  simp only [procMonitorStartEach, added, read, Option.bind_eq_bind, Option.bind_some]

theorem newProcess_reportedShort : ∃ start after captured,
    procMonitorStartEach (fun _ => none) (fun _ _ _ => none) (fun _ _ _ _ => none)
        (procMonitorInit 200) [ascii "1", ascii "self", ascii "42"]
        [[ascii "1", ascii "57", ascii "uptime"]] = some (start, [(after, captured)]) ∧
      PolledShort start [1, 42] [1, 57] after captured := by
  have initially : ProcListing [ascii "1", ascii "self", ascii "42"] [1, 42] :=
    ⟨by decide, by decide, by
      rw [List.forall_mem_cons, List.forall_mem_singleton]
      decide⟩
  have later : ProcListing [ascii "1", ascii "57", ascii "uptime"] [1, 57] :=
    ⟨by decide, by decide, by
      rw [List.forall_mem_cons, List.forall_mem_singleton]
      decide⟩
  have never : Realloc.Documented fun _ _ => none := fun _ _ _ _ given => by cases given
  obtain ⟨start, history, started, length, polled⟩ :=
    procMonitor_reportsShort (fun _ => none) 200 (fun _ => never) (fun _ _ => never) initially
      (.cons later .nil)
  obtain ⟨⟨after, captured⟩, rfl⟩ := List.length_eq_one_iff.mp length
  exact ⟨start, after, captured, started, polled 0 _ _ _ _ _ rfl rfl rfl rfl⟩

end BlockchainAuditor
