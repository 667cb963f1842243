import BlockchainAuditor.MonitorMemory
import BlockchainAuditor.CommandRun

/-! `cmd_daemon` as a whole: the process monitor or the audit monitor runs in the main thread, and
its events go to the log and through the queue to the gateway. -/

namespace BlockchainAuditor

open CStrings Transitions Feeds

/-- `listed` once the listing in front of the first poll was read, `left` when `opendir` failed. -/
structure ProcPolls where
  pm : ProcMonitor
  listed : Bool
  left : Bool

/-- The pids that a listing has and, for a poll, the new ones of them with what
`capture_new_process` called the callback with. -/
inductive PollAction
  | lists (pids : List Int32)
  | polls (pids : List Int32) (reports : List (Int32 × List AuditEvent))
  | leaves

def ReportsNew (sha256 : Bytes → Digest) (pid : Int32) (report : Int32 × List AuditEvent) : Prop :=
  report.1 = pid ∧ ∃ host, captureNewProcess host sha256 true pid = some report.2

section Supply

variable (overflow : Overflow) (sha256 : Bytes → Digest)

/-- The kernel lists each process once, and each `realloc` may fail. -/
inductive PollStep : ProcPolls → PollAction → ProcPolls → Prop
  | lists {pm after reallocs names pids} : (∀ i, Realloc.Documented (reallocs i)) →
      ProcListing names pids →
      addListingEach overflow reallocs 0 names { pm with running := true } = some after →
      PollStep ⟨pm, false, false⟩ (.lists pids) ⟨after, true, false⟩
  | polls {pm after reallocs names pids captured reports} : (∀ i, Realloc.Documented (reallocs i)) →
      ProcListing names pids → pm.running = true →
      pollEach overflow reallocs pm names = some (after, captured) →
      List.Forall₂ (ReportsNew sha256) captured reports →
      PollStep ⟨pm, true, false⟩ (.polls pids reports) ⟨after, true, false⟩
  | leaves {pm listed} : PollStep ⟨pm, listed, false⟩ .leaves ⟨pm, listed, true⟩

def PollAction.reports : PollAction → List (Int32 × List AuditEvent)
  | .polls _ reports => reports
  | _ => []

def pollSupply (intervalMs : Int32) : Supply ProcPolls PollAction AuditEvent where
  system :=
    { start := (· = ⟨procMonitorInit intervalMs, false, false⟩)
      step := PollStep overflow sha256 }
  gives action := action.reports.flatMap Prod.snd
  exhausted state := state.left = true
  final := by
    rintro state action next left taken
    cases taken <;> simp at left

end Supply

def CoversNew : List Int32 → List PollAction → Prop
  | _, [] => True
  | _, .lists pids :: rest => CoversNew pids rest
  | earlier, .polls pids reports :: rest =>
    (reports.map Prod.fst).Sublist pids ∧ (∀ pid ∈ pids, pid ∉ earlier → pid ∈ reports.map Prod.fst) ∧
      CoversNew pids rest
  | earlier, .leaves :: rest => CoversNew earlier rest

variable {overflow : Overflow} {sha256 : Bytes → Digest}

structure Remembers (earlier : List Int32) (state : ProcPolls) : Prop where
  short : earlier.length ≤ pidMaxLimit
  holds : ∃ old, Holds state.pm old ∧ old.Sublist earlier
  unlisted : state.listed = false → earlier = []

theorem initially_remembers (intervalMs : Int32) :
    Remembers [] ⟨procMonitorInit intervalMs, false, false⟩ :=
  ⟨Nat.zero_le _, ⟨[], ⟨List.nil_prefix, rfl, rfl, zero_holds.doubled⟩, .slnil⟩, fun _ => rfl⟩

variable (overflow) in
theorem poll_remembers {state : ProcPolls} {earlier pids : List Int32} {reallocs : Nat → Realloc}
    {names : List Bytes} (remembers : Remembers earlier state)
    (documented : ∀ i, (reallocs i).Documented) (listing : ProcListing names pids) :
    ∃ after captured, pollEach overflow reallocs state.pm names = some (after, captured) ∧
      Remembers pids ⟨after, true, false⟩ ∧ captured.Sublist pids ∧
      ∀ pid ∈ pids, pid ∉ earlier → pid ∈ captured := by
  obtain ⟨short, ⟨old, holds, remembered⟩, _⟩ := remembers
  obtain ⟨after, kept, polled, fewer, keeps, covers⟩ := poll_short overflow documented holds remembered
    (remembered.length_le.trans short) listing
  exact ⟨after, _, polled, ⟨listing.length_le, ⟨kept, keeps, fewer⟩, nofun⟩, List.filter_sublist,
    covers.complete⟩

theorem list_remembers {pm : ProcMonitor} {pids : List Int32} {reallocs : Nat → Realloc}
    {names : List Bytes} (empty : Holds pm []) (documented : ∀ i, (reallocs i).Documented)
    (listing : ProcListing names pids) :
    ∃ after, addListingEach overflow reallocs 0 names { pm with running := true } = some after ∧
      Remembers pids ⟨after, true, false⟩ := by
  have limit : pidMaxLimit = 4194304 := rfl
  have short := listing.length_le
  have running : Holds { pm with running := true } [] :=
    ⟨empty.cells, empty.count, empty.capacity, empty.doubled⟩
  obtain ⟨after, kept, added, _, fewer, holds⟩ := listing_short overflow documented zero_holds
    (by decide) 0 listing.named running (by rw [List.nil_append]; omega)
  rw [List.nil_append] at holds
  exact ⟨after, added, listing.length_le, ⟨kept, holds, fewer⟩, nofun⟩

theorem reported_pids {captured : List Int32} {reports : List (Int32 × List AuditEvent)}
    (each : List.Forall₂ (ReportsNew sha256) captured reports) :
    reports.map Prod.fst = captured ∧ ∀ report ∈ reports, ReportsNew sha256 report.1 report := by
  induction each with
  | nil => exact ⟨rfl, by simp⟩
  | cons here _ ih =>
      obtain ⟨pids, others⟩ := ih
      obtain ⟨rfl, reports⟩ := here
      exact ⟨by rw [List.map_cons, pids], List.forall_mem_cons.mpr ⟨⟨rfl, reports⟩, others⟩⟩

theorem polls_cover {state final : ProcPolls} {earlier : List Int32} {actions : List PollAction}
    {intervalMs : Int32} (remembers : Remembers earlier state)
    (path : Path (pollSupply overflow sha256 intervalMs).system state actions final) :
    CoversNew earlier actions ∧ ∃ last, Remembers last final := by
  induction path generalizing earlier with
  | refl _ => exact ⟨trivial, earlier, remembers⟩
  | step taken _ ih =>
      cases taken with
      | lists documented listing added =>
          obtain ⟨_, ⟨old, holds, remembered⟩, unlisted⟩ := remembers
          obtain rfl := unlisted rfl
          obtain rfl := List.sublist_nil.mp remembered
          obtain ⟨_, alsoAdded, after⟩ := list_remembers holds documented listing
          obtain rfl := Option.some.inj (added.symm.trans alsoAdded)
          exact ih after
      | polls documented listing _ polled each =>
          obtain ⟨_, _, alsoPolled, after, fewer, covers⟩ :=
            poll_remembers overflow remembers documented listing
          obtain ⟨rfl, rfl⟩ := Prod.mk.inj (Option.some.inj (polled.symm.trans alsoPolled))
          obtain ⟨later, atEnd⟩ := ih after
          obtain ⟨pids, _⟩ := reported_pids each
          refine ⟨⟨?_, ?_, later⟩, atEnd⟩
          · rwa [pids]
          · rwa [pids]
      | leaves => exact ih ⟨remembers.short, remembers.holds, remembers.unlisted⟩

def pollReports (actions : List PollAction) : List (Int32 × List AuditEvent) :=
  actions.flatMap PollAction.reports

theorem polls_reported {state final : ProcPolls} {actions : List PollAction} {intervalMs : Int32}
    (path : Path (pollSupply overflow sha256 intervalMs).system state actions final) :
    ∀ report ∈ pollReports actions, ReportsNew sha256 report.1 report := by
  induction path with
  | refl _ => simp [pollReports]
  | step taken _ ih =>
      cases taken with
      | lists _ _ _ => exact ih
      | leaves => exact ih
      | polls _ _ _ _ each => exact List.forall_mem_append.mpr ⟨(reported_pids each).2, ih⟩

variable {client : HttpClient} {size : Int} {intervalMs : Int32}

/-- Every process that a listing has and the one before has not is reported, and with what is reported
`local_log_write` is called in this order. The next poll stays within the arrays, too. -/
structure PollsLogged (overflow : Overflow) (sha256 : Bytes → Digest) (before : Option Bytes)
    (actions : List (FedAction PollAction PipelineAction))
    (state : Fed ProcPolls PipelineState AuditEvent) : Prop where
  covers : CoversNew [] (supplyActions actions)
  reported : ∀ report ∈ pollReports (supplyActions actions), ReportsNew sha256 report.1 report
  logged : ComesToLog ((pollReports (supplyActions actions)).flatMap Prod.snd) before
    (consumerActions actions) state.consumer state.pending
  polls : ∀ reallocs names pids, (∀ i, Realloc.Documented (reallocs i)) → ProcListing names pids →
    (pollEach overflow reallocs state.supply.pm names).isSome

theorem pollDaemon_logs {source state : Fed ProcPolls PipelineState AuditEvent}
    {actions : List (FedAction PollAction PipelineAction)}
    (started : ((pipelineConsumer client true size).fedBy
      (pollSupply overflow sha256 intervalMs)).start source)
    (path : Path ((pipelineConsumer client true size).fedBy (pollSupply overflow sha256 intervalMs))
      source actions state) :
    PollsLogged overflow sha256 source.consumer.log actions state ∧
    (state.consumer.auditor.main = .joined → state.supply.left = true ∧
      SupplyDelivered client true size ((pollReports (supplyActions actions)).flatMap Prod.snd)
        source.consumer (consumerActions actions) state.consumer) := by
  have initially : Remembers [] source.supply := by
    rw [show source.supply = _ from started.1]
    exact initially_remembers intervalMs
  obtain ⟨covers, last, atEnd⟩ := polls_cover initially (supply_path path)
  have given : (pollReports (supplyActions actions)).flatMap Prod.snd =
      (supplyActions actions).flatMap (pollSupply overflow sha256 intervalMs).gives :=
    List.flatMap_assoc
  refine ⟨⟨covers, polls_reported (supply_path path), ?_, ?_⟩, fun joined => ⟨?_, ?_⟩⟩
  · rw [given]
    exact supplied_logged started path
  · intro reallocs names pids documented listing
    obtain ⟨_, _, polled, _⟩ := poll_remembers overflow atEnd documented listing
    rw [polled]
    rfl
  · exact (supply_ended started path joined).1
  · rw [given]
    exact supplied_delivered started path joined

theorem lsProcess_new : ∃ ev, captureNewProcess lsHost (fun _ => idDigest) true 42 = some [ev] := by
  have checked : ((captureNewProcess lsHost (fun _ => idDigest) true 42).any fun events =>
      events.length = 1) = true := by decide +kernel
  obtain ⟨events, reports, one⟩ := (Option.any_eq_true _ _).mp checked
  obtain ⟨ev, rfl⟩ := List.length_eq_one_iff.mp (of_decide_eq_true one)
  exact ⟨ev, reports⟩

def lsPolls (ev : AuditEvent) : List (FedAction PollAction PipelineAction) :=
  oneRound [.lists []] (.polls [42] [(42, [ev])]) (lsPosts ev) [.leaves] joinActions

def listedMonitor : ProcMonitor := { procMonitorInit 200 with running := true }

theorem lsPolls_path {ev : AuditEvent}
    (reports : captureNewProcess lsHost (fun _ => idDigest) true 42 = some [ev]) :
    Path ((pipelineConsumer ⟨true, .zero⟩ true 1).fedBy
        (pollSupply (fun _ => none) (fun _ => idDigest) 200))
      ⟨⟨procMonitorInit 200, false, false⟩, [], freshPipeline⟩ (lsPolls ev)
      ⟨⟨listedMonitor, true, true⟩, [], oneJoined ev⟩ := by
  have refused : ∀ i : Nat, Realloc.Documented ((fun _ _ _ => none : Nat → Realloc) i) :=
    fun _ _ _ _ _ given => by cases given
  have nobody : ProcListing [] [] := ⟨rfl, .nil, by simp⟩
  have alone : ProcListing [ascii "42"] [42] :=
    ⟨by decide, by decide, by
      rw [List.forall_mem_singleton]
      decide⟩
  have new : List.Forall₂ (ReportsNew fun _ => idDigest) [42] [(42, [ev])] :=
    .cons ⟨rfl, lsHost, reports⟩ .nil
  exact oneRound_path (lsPosts_taken ev) (.single (.lists refused nobody rfl)) (by simp [pollSupply,
    PollAction.reports]) (.polls refused alone rfl rfl new) rfl (.single .leaves) (by simp [pollSupply,
      PollAction.reports]) rfl

theorem lsProcess_logged : ∃ ev,
    captureNewProcess lsHost (fun _ => idDigest) true 42 = some [ev] ∧
    PollsLogged (fun _ => none) (fun _ => idDigest) none (lsPolls ev)
      ⟨⟨listedMonitor, true, true⟩, [], oneJoined ev⟩ ∧
    SupplyDelivered ⟨true, .zero⟩ true 1 ((pollReports (supplyActions (lsPolls ev))).flatMap Prod.snd)
      freshPipeline (consumerActions (lsPolls ev)) (oneJoined ev) := by
  obtain ⟨ev, reports⟩ := lsProcess_new
  have started : ((pipelineConsumer ⟨true, .zero⟩ true 1).fedBy
      (pollSupply (fun _ => none) (fun _ => idDigest) 200)).start
      ⟨⟨procMonitorInit 200, false, false⟩, [], freshPipeline⟩ := ⟨rfl, rfl, freshPipeline_starts⟩
  obtain ⟨logged, joins⟩ := pollDaemon_logs started (lsPolls_path reports)
  exact ⟨ev, reports, logged, (joins rfl).2⟩

/-! The audit monitor, record after record. -/

def Turn.ends (turn : Turn) : Bool :=
  !turn.running || match turn.reply with
    | .failed => true
    | _ => false

section Records

variable (localtime : Int → LocalTime) (sha256 : Bytes → Digest)

inductive RecordStep : Bool → Turn × List AuditEvent → Bool → Prop
  | turns {turn events} : monitorLoop localtime sha256 true [turn] = some events →
      RecordStep false (turn, events) turn.ends

/-- With a negative descriptor there is no loop. -/
def recordSupply (fd : Int32) : Supply Bool (Turn × List AuditEvent) AuditEvent where
  system :=
    { start := (· = decide (fd < 0))
      step := RecordStep localtime sha256 }
  gives := Prod.snd
  exhausted left := left = true
  final := by
    rintro state action next rfl taken
    cases taken

end Records

variable {localtime : Int → LocalTime} {fd : Int32}

theorem monitorLoop_cons {turn : Turn} {rest : List Turn} {events later : List AuditEvent}
    (goesOn : turn.ends = false) (first : monitorLoop localtime sha256 true [turn] = some events)
    (others : monitorLoop localtime sha256 true rest = some later) :
    monitorLoop localtime sha256 true (turn :: rest) = some (events ++ later) := by
  obtain ⟨running, reply, time, host⟩ := turn
  cases running with
  | false => simp [Turn.ends] at goesOn
  | true =>
      cases reply with
      | failed => simp [Turn.ends] at goesOn
      | interrupted =>
          obtain rfl : [] = events := Option.some.inj first
          exact others
      | received type message =>
          simp only [monitorLoop, ↓reduceIte, Option.bind_eq_bind, Option.bind_eq_some_iff] at first ⊢
          obtain ⟨dispatched, handled, appended⟩ := first
          obtain rfl : dispatched = events := by
            simpa using appended
          exact ⟨dispatched, handled, later, others, rfl⟩

theorem left_nothing {left last : Bool} {actions : List (Turn × List AuditEvent)}
    (path : Path (recordSupply localtime sha256 fd).system left actions last) (gone : left = true) :
    actions = [] := by
  cases path with
  | refl _ => rfl
  | step moved _ =>
      subst gone
      cases moved

theorem records_dispatched {left last : Bool} {actions : List (Turn × List AuditEvent)}
    (path : Path (recordSupply localtime sha256 fd).system left actions last) (going : left = false) :
    monitorLoop localtime sha256 true (actions.map Prod.fst) =
      some (actions.flatMap Prod.snd) := by
  induction path with
  | refl _ => rfl
  | @step _ _ _ actions _ taken rest ih =>
      cases taken with
      | @turns turn events ran =>
          cases ends : turn.ends with
          | false =>
              rw [ends] at rest ih
              exact monitorLoop_cons ends ran (ih rfl)
          | true =>
              obtain rfl := left_nothing rest ends
              rw [List.map_singleton, ran, List.flatMap_singleton]

/-- With what the loop dispatches for the records so far `local_log_write` is called in this order. -/
structure RecordsLogged (localtime : Int → LocalTime) (sha256 : Bytes → Digest) (fd : Int32)
    (before : Option Bytes) (actions : List (FedAction (Turn × List AuditEvent) PipelineAction))
    (state : Fed Bool PipelineState AuditEvent) (events : List AuditEvent) : Prop where
  dispatched : auditMonitorStart localtime sha256 true fd ((supplyActions actions).map Prod.fst) =
    some events
  hashed : AllSealed sha256 events
  logged : ComesToLog events before (consumerActions actions) state.consumer state.pending

theorem auditDaemon_logs {source state : Fed Bool PipelineState AuditEvent}
    {actions : List (FedAction (Turn × List AuditEvent) PipelineAction)}
    (started : ((pipelineConsumer client true size).fedBy
      (recordSupply localtime sha256 fd)).start source)
    (path : Path ((pipelineConsumer client true size).fedBy (recordSupply localtime sha256 fd))
      source actions state) :
    ∃ events, RecordsLogged localtime sha256 fd source.consumer.log actions state events ∧
      (state.consumer.auditor.main = .joined → state.supply = true ∧
        SupplyDelivered client true size events source.consumer (consumerActions actions)
          state.consumer) := by
  have starts : source.supply = decide (fd < 0) := started.1
  have inside := supply_path path
  have dispatched : auditMonitorStart localtime sha256 true fd ((supplyActions actions).map Prod.fst) =
      some ((supplyActions actions).flatMap Prod.snd) := by
    by_cases failed : fd < 0
    · rw [auditMonitorStart, if_pos failed, left_nothing inside (starts.trans (decide_eq_true failed))]
      rfl
    · rw [auditMonitorStart, if_neg failed]
      exact records_dispatched inside (by rw [starts, decide_eq_false failed])
  have completes : Completes (auditMonitorStart localtime sha256 true fd _) (AllSealed sha256) :=
    auditMonitorStart_completes fd ((supplyActions actions).map Prod.fst)
  refine ⟨_, ⟨dispatched, completes.holds dispatched, supplied_logged started path⟩,
    fun joined => ⟨(supply_ended started path joined).1, supplied_delivered started path joined⟩⟩

theorem writeTurn_dispatched : ∃ ev, monitorLoop (fun _ => noon) zeroDigest true [writeTurn "917"] =
    some [ev] := by
  have checked : ((parseSyscall noonHost zeroDigest true (writeMessage "917")).any fun events =>
      events.length = 1) = true := by decide +kernel
  obtain ⟨events, parsed, one⟩ := (Option.any_eq_true _ _).mp checked
  obtain ⟨ev, rfl⟩ := List.length_eq_one_iff.mp (of_decide_eq_true one)
  have handled : handleRecord zeroDigest true { noonHost with localTime := noon } .syscall
    (writeMessage "917") = some [ev] := parsed
  exact ⟨ev, by simp [monitorLoop, writeTurn, handled]⟩

def failedTurn : Turn := { writeTurn "917" with reply := .failed }

def writeRecords (ev : AuditEvent) : List (FedAction (Turn × List AuditEvent) PipelineAction) :=
  oneRound [] (writeTurn "917", [ev]) (lsPosts ev) [(failedTurn, [])] joinActions

theorem writeRecord_logged : ∃ ev events,
    RecordsLogged (fun _ => noon) zeroDigest 3 none (writeRecords ev) ⟨true, [], oneJoined ev⟩ events ∧
    SupplyDelivered ⟨true, .zero⟩ true 1 events freshPipeline (consumerActions (writeRecords ev))
      (oneJoined ev) := by
  obtain ⟨ev, dispatched⟩ := writeTurn_dispatched
  have started : ((pipelineConsumer ⟨true, .zero⟩ true 1).fedBy
      (recordSupply (fun _ => noon) zeroDigest 3)).start ⟨false, [], freshPipeline⟩ :=
    ⟨rfl, rfl, freshPipeline_starts⟩
  have path : Path ((pipelineConsumer ⟨true, .zero⟩ true 1).fedBy
      (recordSupply (fun _ => noon) zeroDigest 3)) ⟨false, [], freshPipeline⟩ (writeRecords ev)
      ⟨true, [], oneJoined ev⟩ :=
    oneRound_path (lsPosts_taken ev) (.refl _) (by simp) (.turns dispatched) rfl (.single (.turns rfl))
      (by simp [recordSupply]) rfl
  obtain ⟨events, logged, joins⟩ := auditDaemon_logs started path
  exact ⟨ev, events, logged, (joins rfl).2⟩

end BlockchainAuditor
