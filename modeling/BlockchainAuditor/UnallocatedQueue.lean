import BlockchainAuditor.EventPipeline

/-! The process when `queue_init` gets no memory: `main` goes on without looking at what it
returns, with the queue that `memset` left. -/

namespace BlockchainAuditor

open CStrings Transitions

/-- `cells` stands for what would be read behind the null pointer. -/
def zeroedQueue {α : Type} (cells : Nat → α) : AsyncQueue α where
  buffer := cells
  head := 0
  tail := 0
  size := 0
  count := 0
  shutdown := false

def queueInitLeaves {α : Type} (cells : Nat → α) (memory : Option (Nat → α)) (size : Int) :
    Int × AsyncQueue α :=
  match queueInit memory size with
  | none => (-1, zeroedQueue cells)
  | some queue => (0, queue)

theorem queueInit_fails {α : Type} {cells : Nat → α} {memory : Option (Nat → α)} {size : Int}
    (failed : (queueInitLeaves cells memory size).1 ≠ 0) :
    memory = none ∧ (queueInitLeaves cells memory size).2 = zeroedQueue cells := by
  cases memory with
  | none => exact ⟨rfl, rfl⟩
  | some buffer => exact absurd rfl failed

/-- `queue_init` failed, and the threads are where they start. -/
structure StartsUnallocated (source : PipelineState) : Prop where
  queue : ∃ cells memory, (queueInitLeaves cells memory queueDefaultSize).1 ≠ 0 ∧
    source.auditor.shared.queue = (queueInitLeaves cells memory queueDefaultSize).2
  main : source.auditor.main = .producing
  worker : source.auditor.worker = .testing
  callback : source.callback = .outside

theorem roomless_step {Tid α : Type} [DecidableEq Tid] {shared next : QueueState Tid α}
    {action : QueueAction Tid α} (taken : QueueStep shared action next)
    (size : shared.queue.size = 0) (count : shared.queue.count = 0) :
    next.queue.size = 0 ∧ next.queue.count = 0 ∧ (∀ thread ev, action ≠ .popReturns thread (some ev)) ∧
      (shared.queue.shutdown = false → ∀ thread ev rc, action ≠ .pushReturns thread ev rc) := by
  have effect := taken.effect
  generalize shared.queue = before at effect size count
  generalize next.queue = after at effect
  cases effect with
  | rejected closed => exact ⟨size, count, nofun, fun opened => by simp [closed] at opened⟩
  | accepted _ room => omega
  | popTakes _ held => omega
  | _ => exact ⟨size, count, nofun, fun _ => nofun⟩

structure Roomless (auditor : AuditorState) : Prop where
  size : auditor.shared.queue.size = 0
  count : auditor.shared.queue.count = 0
  opened : auditor.main = .producing → auditor.shared.queue.shutdown = false
  idle : ∀ ev retries, auditor.worker ≠ .delivering ev retries

variable {client : HttpClient} {auditor after : AuditorState}

theorem roomless_main {action : QueueAction Role AuditEvent} {shared : QueueState Role AuditEvent}
    {place : MainPlace} (roomless : Roomless auditor)
    (allowed : mainAfter auditor.main action = some place) (critical : QueueStep auditor.shared action shared) :
    Roomless { auditor with shared, main := place } ∧ (auditor.main = .producing →
      place = .producing ∧ ∀ thread ev rc, action ≠ .pushReturns thread ev rc) := by
  obtain ⟨size, count, opened, idle⟩ := roomless
  obtain ⟨nextSize, nextCount, _, unreturned⟩ := roomless_step critical size count
  have kept := critical.effect.keepsShutdown
  rcases mainAfter_cases allowed with ⟨producing, rfl, other⟩ | ⟨stopped, rfl, _⟩ | ⟨rfl, thread, rfl⟩
  · exact ⟨⟨nextSize, nextCount, fun _ => (kept other).trans (opened producing), idle⟩,
      fun _ => ⟨rfl, unreturned (opened producing)⟩⟩
  · exact ⟨⟨nextSize, nextCount, nofun, idle⟩, fun producing => by simp [stopped] at producing⟩
  · exact ⟨⟨nextSize, nextCount, fun producing => (kept nofun).trans (opened producing), idle⟩,
      fun producing => ⟨producing, nofun⟩⟩

theorem roomless_worker {action : QueueAction Role AuditEvent} {shared : QueueState Role AuditEvent}
    {place : WorkerPlace} (roomless : Roomless auditor)
    (allowed : workerAfter auditor.worker action = some place)
    (critical : QueueStep auditor.shared action shared) :
    Roomless { auditor with shared, worker := place } ∧
      ∀ thread ev rc, action ≠ .pushReturns thread ev rc := by
  obtain ⟨size, count, opened, idle⟩ := roomless
  obtain ⟨nextSize, nextCount, unpopped, _⟩ := roomless_step critical size count
  have kept := critical.effect.keepsShutdown
  rcases workerAfter_cases allowed with ⟨_, value, _, rfl, rfl⟩ | ⟨_, _, rfl, rfl⟩ |
    ⟨_, ev, _, rfl, _⟩ | ⟨_, _, rfl, rfl⟩ | ⟨_, rfl, rfl⟩
  · refine ⟨⟨nextSize, nextCount, fun producing => (kept nofun).trans (opened producing), ?_⟩, nofun⟩
    intro ev retries delivering
    dsimp only at delivering
    split at delivering <;> cases delivering
  · exact ⟨⟨nextSize, nextCount, fun producing => (kept nofun).trans (opened producing), nofun⟩, nofun⟩
  · exact absurd rfl (unpopped _ ev)
  · exact ⟨⟨nextSize, nextCount, fun producing => (kept nofun).trans (opened producing), nofun⟩, nofun⟩
  · exact ⟨⟨nextSize, nextCount, fun producing => (kept nofun).trans (opened producing), idle⟩, nofun⟩

theorem roomless_auditor {action : AuditorAction} (roomless : Roomless auditor)
    (taken : AuditorStep client auditor action after) :
    Roomless after ∧ (auditor.main = .producing →
      (action ≠ .stops → after.main = .producing) ∧
      ∀ thread ev rc, action ≠ .queue (.pushReturns thread ev rc)) := by
  cases taken with
  | main _ allowed critical =>
      obtain ⟨holds, stays⟩ := roomless_main roomless allowed critical
      refine ⟨holds, fun producing => ⟨fun _ => (stays producing).1, ?_⟩⟩
      exact fun thread ev rc same => (stays producing).2 thread ev rc (AuditorAction.queue.inj same)
  | worker _ allowed critical =>
      obtain ⟨holds, unreturned⟩ := roomless_worker roomless allowed critical
      refine ⟨holds, fun producing => ⟨fun _ => producing, ?_⟩⟩
      exact fun thread ev rc same => unreturned thread ev rc (AuditorAction.queue.inj same)
  | stops _ _ =>
      exact ⟨⟨roomless.size, roomless.count, nofun, roomless.idle⟩,
        fun _ => ⟨fun other => absurd rfl other, nofun⟩⟩
  | joins closed _ =>
      exact ⟨⟨roomless.size, roomless.count, nofun, roomless.idle⟩,
        fun producing => by simp [closed] at producing⟩
  | signal =>
      exact ⟨⟨roomless.size, roomless.count, roomless.opened, roomless.idle⟩,
        fun producing => ⟨fun _ => producing, nofun⟩⟩
  | tests _ =>
      refine ⟨⟨roomless.size, roomless.count, roomless.opened, ?_⟩,
        fun producing => ⟨fun _ => producing, nofun⟩⟩
      intro ev retries delivering
      dsimp only at delivering
      split at delivering <;> cases delivering
  | posts delivering => exact absurd delivering (roomless.idle _ _)

/-- Nothing was logged or posted, and the callback is still pushing what was captured first. -/
structure Hangs (log : Option Bytes) (done : List PipelineAction) (state : PipelineState) : Prop where
  roomless : Roomless state.auditor
  captured : capturedBy done = state.callback.unpushed
  handed : handedBy done = [] ∧ state.log = log
  attempted : attemptedBy done = []
  pushing : ∀ ev ∈ capturedBy done, state.auditor.main = .producing ∧ state.callback = .pushing ev
  unwriting : ∀ ev, state.callback ≠ .writing ev

variable {size : Int} {source state next : PipelineState} {action : PipelineAction}
  {actions done : List PipelineAction}

theorem hangs_step {log : Option Bytes} (hangs : Hangs log done state)
    (taken : PipelineStep client true state action next) : Hangs log (done ++ [action]) next := by
  obtain ⟨roomless, captured, ⟨handed, kept⟩, attempted, pushing, unwriting⟩ := hangs
  cases taken with
  | @captured ev producing outside =>
      rw [outside] at captured
      have first : capturedBy (done ++ [.captured ev]) = [ev] := by
        rw [capturedBy_snoc, captured]
        rfl
      refine ⟨roomless, first, ⟨?_, kept⟩, ?_, ?_, nofun⟩
      · rw [handedBy_snoc, handed]
        rfl
      · rw [attemptedBy_snoc, attempted]
        rfl
      · intro other member
        rw [first, List.mem_singleton] at member
        exact ⟨producing, congrArg CallbackPlace.pushing member.symm⟩
  | writes writing => exact absurd writing (unwriting _)
  | posts _ delivering _ => exact absurd delivering (roomless.idle _ _)
  | @auditor action after callback _ allowed inside =>
      obtain ⟨roomless, stays⟩ := roomless_auditor roomless inside
      have same : callback = state.callback := by
        rcases CallbackPlace.after_cases allowed with ⟨thread, ev, rc, rfl, place, _⟩ | ⟨_, _, same⟩
        · have member : ev ∈ capturedBy done := by
            rw [captured, place]
            exact List.mem_singleton_self ev
          exact absurd rfl ((stays (pushing ev member).1).2 thread ev rc)
        · exact same
      have quiet : capturedBy (done ++ [.auditor action]) = capturedBy done := by
        rw [capturedBy_snoc]
        exact List.append_nil _
      refine ⟨roomless, ?_, ⟨?_, kept⟩, ?_, ?_, ?_⟩
      · rw [quiet, captured, same]
      · rw [handedBy_snoc, handed]
        rfl
      · rw [attemptedBy_snoc, attempted]
        rfl
      · intro ev member
        rw [quiet] at member
        obtain ⟨producing, place⟩ := pushing ev member
        have other : action ≠ .stops := by
          rintro rfl
          simp [CallbackPlace.after, place] at allowed
        exact ⟨(stays producing).1 other, same.trans place⟩
      · rw [same]
        exact unwriting

/-- With the gateway and no memory for the queue, the event that is captured first is neither logged
nor posted, and no signal ends the process. -/
theorem unallocated_hangs (starts : StartsUnallocated source)
    (path : Path (pipeline client true size) source actions state) :
    Hangs source.log actions state := by
  obtain ⟨⟨cells, memory, failed, left⟩, main, worker, callback⟩ := starts
  have queue : source.auditor.shared.queue = zeroedQueue cells :=
    left.trans (queueInit_fails failed).2
  have roomless : Roomless source.auditor :=
    ⟨by rw [queue]; rfl, by rw [queue]; rfl, fun _ => by rw [queue]; rfl, by simp [worker]⟩
  have initially : Hangs source.log [] source :=
    ⟨roomless, by rw [callback]; rfl, ⟨rfl, rfl⟩, rfl, by simp [capturedBy], by simp [callback]⟩
  have holds := path.records (Hangs source.log) (fun _ _ _ _ hangs taken => hangs_step hangs taken) []
    initially
  rwa [List.nil_append] at holds

def unallocatedPipeline : PipelineState where
  auditor :=
    { shared := { queue := zeroedQueue fun _ => .zero, threads := fun _ => .outside }
      running := true
      main := .producing
      worker := .testing }
  callback := .outside
  log := none

def interruptedPush (ev : AuditEvent) : List PipelineAction :=
  [.captured ev, .auditor (.queue (.pushWaits .main ev)), .auditor .signal]

def interruptedPipeline (ev : AuditEvent) : PipelineState where
  auditor :=
    { shared :=
        { queue := zeroedQueue fun _ => .zero
          threads := setThread (fun _ => .outside) .main (.waitingNotFull ev) }
      running := false
      main := .producing
      worker := .testing }
  callback := .pushing ev
  log := none

theorem interruptedPush_path (ev : AuditEvent) :
    Path (pipeline ⟨true, .zero⟩ true 1) unallocatedPipeline (interruptedPush ev)
      (interruptedPipeline ev) :=
  .step (.captured rfl rfl) (.step (.auditor (Or.inl rfl) (if_pos rfl) (.main rfl rfl
    (.pushWaits (Or.inl rfl) rfl))) (.single (.auditor (Or.inl rfl) rfl .signal)))

theorem interruptedZero_hangs :
    Hangs none (interruptedPush .zero) (interruptedPipeline .zero) :=
  have path : Path (pipeline ⟨true, .zero⟩ true 1) unallocatedPipeline (interruptedPush .zero)
    (interruptedPipeline .zero) := interruptedPush_path .zero
  unallocated_hangs ⟨⟨fun _ => .zero, none, by decide, rfl⟩, rfl, rfl, rfl⟩ path

end BlockchainAuditor
