import BlockchainAuditor.Library.Transitions

/-! A system that is fed by another one: a supply gives items in batches, the consumer takes
them one by one and in order, and the supply moves on when the batch is empty. -/

namespace Feeds

open Transitions

variable {Supplies SupplyAction State Action Item : Type}

/-- An exhausted supply does not move again. -/
structure Supply (State Action Item : Type) where
  system : System State Action
  gives : Action → List Item
  exhausted : State → Prop
  final : ∀ state action next, exhausted state → ¬system.step state action next

/-- The supply moves only while the consumer is idle, and a closing action waits for its end. -/
structure Consumer (State Action Item : Type) where
  system : System State Action
  takes : Action → Option Item
  idle : State → Prop
  closes : Action → Prop

structure Fed (Supplies State Item : Type) where
  supply : Supplies
  pending : List Item
  consumer : State

inductive FedAction (SupplyAction Action : Type)
  | supply (action : SupplyAction)
  | consumer (action : Action)

inductive FedStep (supply : Supply Supplies SupplyAction Item) (consumer : Consumer State Action Item) :
    Fed Supplies State Item → FedAction SupplyAction Action → Fed Supplies State Item → Prop
  | supply {state action next} : consumer.idle state.consumer → state.pending = [] →
      supply.system.step state.supply action next →
      FedStep supply consumer state (.supply action)
        { state with supply := next, pending := supply.gives action }
  | consumer {state action rest next} : state.pending = (consumer.takes action).toList ++ rest →
      (consumer.closes action → supply.exhausted state.supply ∧ state.pending = []) →
      consumer.system.step state.consumer action next →
      FedStep supply consumer state (.consumer action)
        { state with pending := rest, consumer := next }

def Consumer.fedBy (consumer : Consumer State Action Item)
    (supply : Supply Supplies SupplyAction Item) :
    System (Fed Supplies State Item) (FedAction SupplyAction Action) where
  start state := supply.system.start state.supply ∧ state.pending = [] ∧
    consumer.system.start state.consumer
  step := FedStep supply consumer

def FedAction.supply? : FedAction SupplyAction Action → Option SupplyAction
  | .supply action => some action
  | .consumer _ => none

def FedAction.consumer? : FedAction SupplyAction Action → Option Action
  | .supply _ => none
  | .consumer action => some action

def supplyActions (actions : List (FedAction SupplyAction Action)) : List SupplyAction :=
  actions.filterMap FedAction.supply?

def consumerActions (actions : List (FedAction SupplyAction Action)) : List Action :=
  actions.filterMap FedAction.consumer?

variable {supply : Supply Supplies SupplyAction Item} {consumer : Consumer State Action Item}
  {source state : Fed Supplies State Item} {actions : List (FedAction SupplyAction Action)}

theorem supply_path (path : Path (consumer.fedBy supply) source actions state) :
    Path supply.system source.supply (supplyActions actions) state.supply := by
  induction path with
  | refl _ => exact .refl _
  | step taken _ ih =>
      cases taken with
      | supply _ _ inside => exact .step inside ih
      | consumer _ _ _ => exact ih

theorem consumer_path (path : Path (consumer.fedBy supply) source actions state) :
    Path consumer.system source.consumer (consumerActions actions) state.consumer := by
  induction path with
  | refl _ => exact .refl _
  | step taken _ ih =>
      cases taken with
      | supply _ _ _ => exact ih
      | consumer _ _ inside => exact .step inside ih

/-- Nothing that is given is lost, taken twice or taken out of order. -/
theorem given_taken (path : Path (consumer.fedBy supply) source actions state) :
    source.pending ++ (supplyActions actions).flatMap supply.gives =
      (consumerActions actions).filterMap consumer.takes ++ state.pending := by
  induction path with
  | refl _ => simp [supplyActions, consumerActions]
  | @step _ _ _ actions _ taken _ ih =>
      cases taken with
      | supply _ empty _ =>
          rw [empty]
          exact ih
      | @consumer action rest _ split _ _ =>
          rw [split, List.append_assoc]
          simp only [supplyActions, consumerActions, FedAction.supply?, FedAction.consumer?,
            List.filterMap_cons] at ih ⊢
          rw [ih]
          cases consumer.takes action <;> rfl

theorem closed_exhausted (path : Path (consumer.fedBy supply) source actions state)
    {action : Action} (member : action ∈ consumerActions actions) (closing : consumer.closes action) :
    supply.exhausted state.supply ∧ state.pending = [] := by
  have stays : ∀ (before : Fed Supplies State Item) action next,
      supply.exhausted before.supply ∧ before.pending = [] →
      (consumer.fedBy supply).step before action next →
      supply.exhausted next.supply ∧ next.pending = [] := by
    rintro before action next ⟨exhausted, empty⟩ taken
    cases taken with
    | supply _ _ moved => exact absurd moved (supply.final _ _ _ exhausted)
    | consumer split _ _ =>
        rw [empty] at split
        exact ⟨exhausted, (List.append_eq_nil_iff.mp split.symm).2⟩
  induction path with
  | refl _ => simp [consumerActions] at member
  | step taken later ih =>
      cases taken with
      | supply _ _ _ => exact ih member
      | consumer split waits moved =>
          rcases List.mem_cons.mp member with rfl | others
          · exact later.preserves _ stays (stays _ (.consumer action) _ (waits closing)
              (.consumer split waits moved))
          · exact ih others

theorem supply_runs {before after : Supplies} {moves : List SupplyAction}
    (path : Path supply.system before moves after) (silent : ∀ action ∈ moves, supply.gives action = [])
    {idle : State} (isIdle : consumer.idle idle) :
    Path (consumer.fedBy supply) ⟨before, [], idle⟩ (moves.map .supply) ⟨after, [], idle⟩ := by
  induction path with
  | refl _ => exact .refl _
  | @step source action middle _ _ moved _ ih =>
      obtain ⟨nothing, others⟩ := List.forall_mem_cons.mp silent
      have first : FedStep supply consumer ⟨source, [], idle⟩ (.supply action)
          ⟨middle, supply.gives action, idle⟩ := .supply isIdle rfl moved
      rw [nothing] at first
      exact .step first (ih others)

theorem consumer_runs {supplies : Supplies} {before after : State} {taken : List Action}
    (path : Path consumer.system before taken after) (rest : List Item)
    (waits : ∀ action ∈ taken, consumer.closes action →
      supply.exhausted supplies ∧ taken.filterMap consumer.takes ++ rest = []) :
    Path (consumer.fedBy supply) ⟨supplies, taken.filterMap consumer.takes ++ rest, before⟩
      (taken.map .consumer) ⟨supplies, rest, after⟩ := by
  induction path with
  | refl _ => exact .refl _
  | @step _ action _ actions _ moved _ ih =>
      have split : (action :: actions).filterMap consumer.takes ++ rest =
          (consumer.takes action).toList ++ (actions.filterMap consumer.takes ++ rest) := by
        rw [List.filterMap_cons]
        cases consumer.takes action <;> rfl
      refine .step (.consumer split (waits action List.mem_cons_self) moved) (ih ?_)
      intro later member closing
      obtain ⟨exhausted, nothing⟩ := waits later (List.mem_cons_of_mem _ member) closing
      rw [split, List.append_eq_nil_iff] at nothing
      exact ⟨exhausted, nothing.2⟩

end Feeds
