import BlockchainAuditor.Library.Feeds
import BlockchainAuditor.EventPipeline

/-! What calls `event_callback` in the main thread: a supply of events that moves on only when
the callback has returned, and whose end `main.c` waits for before it stops the worker. -/

namespace BlockchainAuditor

open CStrings Transitions Feeds LineReader Repetitions

def pipelineConsumer (client : HttpClient) (useGateway : Bool) (size : Int) :
    Consumer PipelineState PipelineAction AuditEvent where
  system := pipeline client useGateway size
  takes := PipelineAction.captured?
  idle state := state.auditor.main = .producing ∧ state.callback = .outside
  closes action := action = .auditor .stops

variable {client : HttpClient} {useGateway : Bool} {size : Int}

theorem left_step {state next : PipelineState} {action : PipelineAction}
    (taken : PipelineStep client useGateway state action next)
    (left : next.auditor.main ≠ .producing) :
    state.auditor.main ≠ .producing ∨ action = .auditor .stops := by
  cases taken with
  | captured _ _ => exact Or.inl left
  | writes _ => exact Or.inl left
  | posts _ _ inside =>
      cases inside with
      | posts _ => exact Or.inl left
  | auditor _ _ inside =>
      cases inside with
      | main _ after _ =>
          rcases mainAfter_cases after with ⟨_, rfl, _⟩ | ⟨stopped, _⟩ | ⟨rfl, _⟩
          · exact absurd rfl left
          · exact Or.inl (by simp [stopped])
          · exact Or.inl left
      | stops _ _ => exact Or.inr rfl
      | joins closed _ => exact Or.inl (by simp [closed])
      | worker _ _ _ => exact Or.inl left
      | signal => exact Or.inl left
      | tests _ => exact Or.inl left
      | posts _ => exact Or.inl left

theorem left_stops {source state : PipelineState} {actions : List PipelineAction}
    (started : (pipeline client useGateway size).start source)
    (path : Path (pipeline client useGateway size) source actions state)
    (left : state.auditor.main ≠ .producing) : .auditor .stops ∈ actions := by
  have producing : source.auditor.main = .producing := started.1.2.2.1
  have holds := path.records
    (fun done state => state.auditor.main ≠ .producing → .auditor .stops ∈ done)
    (fun done state action next before taken left => by
      rcases left_step taken left with earlier | rfl
      · exact List.mem_append_left _ (before earlier)
      · exact List.mem_append_right _ (List.mem_singleton_self _))
    [] (fun left => absurd producing left)
  rw [List.nil_append] at holds
  exact holds left

/-- The process has joined its worker or, when it has none, its supply has ended. -/
def SupplyEnded {Supplies SupplyAction : Type} (supply : Supply Supplies SupplyAction AuditEvent)
    (useGateway : Bool) (state : Fed Supplies PipelineState AuditEvent) : Prop :=
  if useGateway then state.consumer.auditor.main = .joined
  else supply.exhausted state.supply ∧ state.pending = [] ∧ state.consumer.callback = .outside

/-- `local_log_write` was called with the events, and those in front were posted. The others are
still queued, which takes a signal before the end of the supply. -/
structure SupplyDelivered (client : HttpClient) (useGateway : Bool) (size : Int)
    (events : List AuditEvent) (source : PipelineState) (actions : List PipelineAction)
    (state : PipelineState) : Prop where
  logged : LogGrown source.log actions events state.log
  posted : useGateway = true → ∃ finished, events = finished ++ state.auditor.shared.queue.contents ∧
    Repeats retriesMax finished (attemptedBy actions)
  allPosted : useGateway = true →
    Path ((pipeline client useGateway size).restrict SignalsBehind) source actions state →
    Repeats retriesMax events (attemptedBy actions)
  unsent : useGateway = false → attemptedBy actions = []

variable {Supplies SupplyAction : Type} {supply : Supply Supplies SupplyAction AuditEvent}
  {source state : Fed Supplies PipelineState AuditEvent}
  {actions : List (FedAction SupplyAction PipelineAction)}

/-- `local_log_write` was called with the events so far in this order, but for those at the end that
the callback still has or has yet to take. -/
def ComesToLog (events : List AuditEvent) (before : Option Bytes) (actions : List PipelineAction)
    (state : PipelineState) (pending : List AuditEvent) : Prop :=
  ∃ through, LogGrown before actions through state.log ∧
    events = through ++ state.callback.unwritten ++ pending

theorem supplied_logged
    (started : ((pipelineConsumer client useGateway size).fedBy supply).start source)
    (path : Path ((pipelineConsumer client useGateway size).fedBy supply) source actions state) :
    ComesToLog ((supplyActions actions).flatMap supply.gives) source.consumer.log
      (consumerActions actions) state.consumer state.pending := by
  obtain ⟨_, empty, starts⟩ := started
  obtain ⟨_, record, _, _⟩ := pipeline_records starts (consumer_path path)
  have given := given_taken path
  rw [empty, List.nil_append] at given
  refine ⟨_, handed_grows record, ?_⟩
  rw [given, ← record.handed]
  rfl

theorem supply_ended (started : ((pipelineConsumer client useGateway size).fedBy supply).start source)
    (path : Path ((pipelineConsumer client useGateway size).fedBy supply) source actions state)
    (ended : SupplyEnded supply useGateway state) :
    supply.exhausted state.supply ∧ state.pending = [] ∧ state.consumer.callback = .outside := by
  cases useGateway with
  | false => exact ended
  | true =>
      have joined : state.consumer.auditor.main = .joined := ended
      obtain ⟨callback, _⟩ := pipeline_records started.2.2 (consumer_path path)
      have stops := left_stops started.2.2 (consumer_path path) (by simp [joined])
      obtain ⟨exhausted, empty⟩ := closed_exhausted path stops rfl
      exact ⟨exhausted, empty, joined_outside callback joined⟩

theorem supplied_delivered
    (started : ((pipelineConsumer client useGateway size).fedBy supply).start source)
    (path : Path ((pipelineConsumer client useGateway size).fedBy supply) source actions state)
    (ended : SupplyEnded supply useGateway state) :
    SupplyDelivered client useGateway size ((supplyActions actions).flatMap supply.gives)
      source.consumer (consumerActions actions) state.consumer := by
  have inside : Path (pipeline client useGateway size) _ _ _ := consumer_path path
  obtain ⟨_, empty, outside⟩ := supply_ended started path ended
  obtain ⟨_, record, _, unsent⟩ := pipeline_records started.2.2 inside
  obtain ⟨through, grown, given⟩ := supplied_logged started path
  rw [outside, empty] at given
  simp only [CallbackPlace.unwritten, List.append_nil] at given
  have captured : capturedBy (consumerActions actions) = through :=
    (outside_handed record outside).symm.trans grown.handed
  rw [given]
  refine ⟨grown, ?_, ?_, unsent⟩
  · rintro rfl
    rw [← captured]
    exact joined_posted started.2.2 inside ended
  · rintro rfl late
    obtain ⟨finished, split, posted⟩ := joined_posted started.2.2 inside ended
    rw [← captured, split, late_emptied started.2.2 late ended, List.append_nil]
    exact posted

section Round

variable {State Action : Type} {consumer : Consumer State Action AuditEvent}

def oneRound (quiet : List SupplyAction) (gives : SupplyAction) (first : List Action)
    (others : List SupplyAction) (last : List Action) : List (FedAction SupplyAction Action) :=
  quiet.map .supply ++ .supply gives :: (first.map .consumer ++
    (others.map .supply ++ last.map .consumer))

structure Taken (consumer : Consumer State Action AuditEvent) (ev : AuditEvent) (before : State)
    (first : List Action) (middle : State) (last : List Action) (after : State) : Prop where
  idle : consumer.idle before ∧ consumer.idle middle
  taking : Path consumer.system before first middle
  takes : first.filterMap consumer.takes = [ev]
  unclosed : ∀ action ∈ first, ¬consumer.closes action
  closing : Path consumer.system middle last after
  takesNone : last.filterMap consumer.takes = []

theorem oneRound_path {ev : AuditEvent} {before middle after : State} {first last : List Action}
    {source idle given ended : Supplies} {quiet others : List SupplyAction} {gives : SupplyAction}
    (taken : Taken consumer ev before first middle last after)
    (calm : Path supply.system source quiet idle) (silent : ∀ action ∈ quiet, supply.gives action = [])
    (moved : supply.system.step idle gives given) (gave : supply.gives gives = [ev])
    (ending : Path supply.system given others ended)
    (alsoSilent : ∀ action ∈ others, supply.gives action = []) (exhausted : supply.exhausted ended) :
    Path (consumer.fedBy supply) ⟨source, [], before⟩ (oneRound quiet gives first others last)
      ⟨ended, [], after⟩ := by
  obtain ⟨⟨isIdle, stillIdle⟩, taking, takes, goesOn, closing, takesNone⟩ := taken
  have takings := consumer_runs taking [] fun action member closes =>
    (absurd closes (goesOn action member) : supply.exhausted given ∧ _ = [])
  have closings := consumer_runs closing [] fun _ _ _ =>
    (⟨exhausted, by rw [takesNone]; rfl⟩ : supply.exhausted ended ∧ _ = [])
  rw [takes, List.append_nil, ← gave] at takings
  rw [takesNone, List.append_nil] at closings
  exact (supply_runs calm silent isIdle).append (.step (.supply isIdle rfl moved)
    (takings.append ((supply_runs ending alsoSilent stillIdle).append closings)))

end Round

end BlockchainAuditor
