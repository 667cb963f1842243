import Mathlib.Data.List.Basic

/-! Labelled transition systems: finite runs, invariants over them, and
simulations that replay every run of one system as a run of another. -/

namespace Transitions

structure System (State Action : Type) where
  start : State → Prop
  step : State → Action → State → Prop

variable {State Action Abstract Visible : Type}

inductive Path (system : System State Action) : State → List Action → State → Prop
  | refl (state) : Path system state [] state
  | step {source action middle actions target} : system.step source action middle →
      Path system middle actions target → Path system source (action :: actions) target

theorem Path.single {system : System State Action} {source action target}
    (taken : system.step source action target) : Path system source [action] target :=
  .step taken (.refl target)

theorem Path.append {system : System State Action} {source middle target first second}
    (left : Path system source first middle) (right : Path system middle second target) :
    Path system source (first ++ second) target := by
  induction left with
  | refl _ => exact right
  | step taken _ ih => exact .step taken (ih right)

theorem Path.snoc {system : System State Action} {source middle target actions action}
    (path : Path system source actions middle) (taken : system.step middle action target) :
    Path system source (actions ++ [action]) target :=
  path.append (.single taken)

theorem Path.preserves {system : System State Action} {source target actions}
    (path : Path system source actions target) (invariant : State → Prop)
    (kept : ∀ state action next, invariant state → system.step state action next →
      invariant next) (holds : invariant source) : invariant target := by
  induction path with
  | refl _ => exact holds
  | step taken _ ih => exact ih (kept _ _ _ holds taken)

theorem Path.records {system : System State Action} {source target actions}
    (path : Path system source actions target) (holds : List Action → State → Prop)
    (kept : ∀ done state action next, holds done state → system.step state action next →
      holds (done ++ [action]) next) (done : List Action) (before : holds done source) :
    holds (done ++ actions) target := by
  induction path generalizing done with
  | refl _ => rwa [List.append_nil]
  | step taken _ ih =>
      have first := ih _ (kept _ _ _ _ before taken)
      rwa [List.append_assoc] at first

/-- A potential that every counted action lowers bounds how many of them a run takes. -/
theorem Path.bounded {system : System State Action} {source target actions}
    (path : Path system source actions target) (invariant : State → Prop)
    (kept : ∀ state action next, invariant state → system.step state action next →
      invariant next) (counts : Action → Bool) (potential : State → Nat)
    (descends : ∀ state action next, invariant state → system.step state action next →
      potential next + (if counts action then 1 else 0) ≤ potential state)
    (holds : invariant source) :
    actions.countP counts + potential target ≤ potential source := by
  induction path with
  | refl _ => simp
  | step taken _ ih =>
      have rest := ih (kept _ _ _ holds taken)
      have first := descends _ _ _ holds taken
      rw [List.countP_cons]
      omega

/-- When counted actions stay possible until a goal and no run takes too many of them,
some run reaches the goal. -/
theorem System.reaches {system : System State Action} {source : State} {goal : State → Prop}
    {counts : Action → Bool} {bound : Nat}
    (progress : ∀ actions target, Path system source actions target →
      goal target ∨ ∃ action next, counts action = true ∧ system.step target action next)
    (finite : ∀ actions target, Path system source actions target →
      actions.countP counts ≤ bound) :
    ∃ actions target, Path system source actions target ∧ goal target := by
  by_contra never
  have longer : ∀ length, ∃ actions target, Path system source actions target ∧
      actions.countP counts = length := by
    intro length
    induction length with
    | zero => exact ⟨[], source, .refl source, rfl⟩
    | succ length ih =>
        obtain ⟨actions, target, path, counted⟩ := ih
        rcases progress actions target path with reached | ⟨action, next, isCounted, taken⟩
        · exact absurd ⟨actions, target, path, reached⟩ never
        · exact ⟨actions ++ [action], next, path.snoc taken, by simp [counted, isCounted]⟩
  obtain ⟨actions, target, path, counted⟩ := longer (bound + 1)
  have atMost := finite actions target path
  omega

theorem System.descends {system : System State Action} {goal : State → Prop}
    (invariant : State → Prop) (weight : State → Nat)
    (advances : ∀ state, invariant state → ¬goal state → ∃ action next,
      system.step state action next ∧ invariant next ∧ weight next < weight state)
    {source : State} (holds : invariant source) :
    ∃ actions target, Path system source actions target ∧ invariant target ∧ goal target := by
  generalize weightIs : weight source = bound
  induction bound using Nat.strongRecOn generalizing source with
  | ind bound ih =>
      by_cases reached : goal source
      · exact ⟨[], source, .refl source, holds, reached⟩
      · obtain ⟨action, next, taken, still, lighter⟩ := advances source holds reached
        obtain ⟨actions, target, path, atTarget, arrives⟩ :=
          ih (weight next) (by omega) still rfl
        exact ⟨action :: actions, target, .step taken path, atTarget, arrives⟩

def System.restrict (system : System State Action) (allowed : State → Action → Prop) :
    System State Action where
  start := system.start
  step state action next := allowed state action ∧ system.step state action next

theorem Path.ofRestrict {system : System State Action} {allowed : State → Action → Prop}
    {source target actions} (path : Path (system.restrict allowed) source actions target) :
    Path system source actions target := by
  induction path with
  | refl state => exact .refl state
  | step taken _ ih => exact .step taken.2 ih

/-- Two conditions that agree wherever an invariant holds allow the same runs. -/
theorem Path.restrict_iff {system : System State Action} {allowed others : State → Action → Prop}
    {source target actions} (invariant : State → Prop)
    (kept : ∀ state action next, invariant state → system.step state action next → invariant next)
    (agree : ∀ state action next, invariant state → system.step state action next →
      (allowed state action ↔ others state action)) (holds : invariant source) :
    Path (system.restrict allowed) source actions target ↔
      Path (system.restrict others) source actions target := by
  have imp : ∀ {first second : State → Action → Prop},
      (∀ state action next, invariant state → system.step state action next →
        first state action → second state action) →
      Path (system.restrict first) source actions target →
        Path (system.restrict second) source actions target := by
    intro first second implies path
    induction path with
    | refl state => exact .refl state
    | step taken _ ih =>
        exact .step ⟨implies _ _ _ holds taken.2 taken.1, taken.2⟩ (ih (kept _ _ _ holds taken.2))
  constructor
  · exact imp fun state action next inside taken => (agree state action next inside taken).mp
  · exact imp fun state action next inside taken => (agree state action next inside taken).mpr

def System.Reachable (system : System State Action) (state : State) : Prop :=
  ∃ source actions, system.start source ∧ Path system source actions state

theorem System.Reachable.invariant {system : System State Action} {state}
    (reachable : system.Reachable state) (invariant : State → Prop)
    (initially : ∀ source, system.start source → invariant source)
    (kept : ∀ state action next, invariant state → system.step state action next →
      invariant next) : invariant state := by
  obtain ⟨source, actions, started, path⟩ := reachable
  exact path.preserves invariant kept (initially source started)

theorem System.Reachable.ofRestrict {system : System State Action}
    {allowed : State → Action → Prop} {state}
    (reachable : (system.restrict allowed).Reachable state) : system.Reachable state := by
  obtain ⟨source, actions, started, path⟩ := reachable
  exact ⟨source, actions, started, path.ofRestrict⟩

/-- Each concrete step is replayed by the abstract actions it is observed as. -/
structure Simulation (concrete : System State Action) (abstract : System Abstract Visible) where
  related : State → Abstract → Prop
  observe : Action → List Visible
  initially : ∀ state, concrete.start state → ∃ image, abstract.start image ∧ related state image
  replays : ∀ state image action next, related state image → concrete.step state action next →
    ∃ target, Path abstract image (observe action) target ∧ related next target

theorem Simulation.run {concrete : System State Action} {abstract : System Abstract Visible}
    (simulation : Simulation concrete abstract) {source target actions image}
    (path : Path concrete source actions target) (start : simulation.related source image) :
    ∃ final, Path abstract image (actions.flatMap simulation.observe) final ∧
      simulation.related target final := by
  induction path generalizing image with
  | refl state => exact ⟨image, .refl image, start⟩
  | step taken _ ih =>
      obtain ⟨middle, first, related⟩ := simulation.replays _ _ _ _ start taken
      obtain ⟨final, rest, finish⟩ := ih related
      exact ⟨final, by simpa using first.append rest, finish⟩

end Transitions
