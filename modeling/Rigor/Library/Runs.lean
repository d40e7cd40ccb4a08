import Mathlib.Logic.Basic

/-!
# Runs of a system of events

A system has initial states and events; an event that is enabled in a state leads to
one next state.  What every step preserves holds along every run, and along every fold.
-/

namespace Rigor.Library.Runs

universe u v

structure System (State : Type u) (Event : Type v) where
  Initial : State → Prop
  Enabled : Event → State → Prop
  step : Event → State → State

namespace System

variable {State : Type u} {Event : Type v}

/-- The run of a list of events, each enabled where it happens. -/
inductive Run (system : System State Event) : State → List Event → State → Prop where
  | nil (state : State) : Run system state [] state
  | cons {state final : State} {event : Event} {events : List Event}
      (enabled : system.Enabled event state)
      (rest : Run system (system.step event state) events final) :
      Run system state (event :: events) final

/-- Some run from an initial state ends here. -/
def Reachable (system : System State Event) (state : State) : Prop :=
  ∃ start events, system.Initial start ∧ system.Run start events state

variable {system : System State Event}

/-- What the steps of some events preserve holds after every run of such events. -/
theorem Run.invariant (holds : State → Prop) (allowed : Event → Prop)
    (step : ∀ state event, allowed event → system.Enabled event state → holds state →
      holds (system.step event state))
    {start final : State} {events : List Event} (run : system.Run start events final)
    (all : ∀ event ∈ events, allowed event) (initially : holds start) : holds final := by
  induction run with
  | nil => exact initially
  | cons enabled rest ih =>
      have first := step _ _ (all _ List.mem_cons_self) enabled initially
      exact ih (fun event mem => all event (List.mem_cons_of_mem _ mem)) first

theorem Run.append {start middle final : State} {front back : List Event}
    (first : system.Run start front middle) (second : system.Run middle back final) :
    system.Run start (front ++ back) final := by
  induction first with
  | nil => exact second
  | cons enabled rest ih => exact .cons enabled (ih second)

theorem Reachable.of_initial {state : State} (initial : system.Initial state) :
    system.Reachable state :=
  ⟨state, [], initial, .nil state⟩

theorem Reachable.step {state : State} {event : Event} (reachable : system.Reachable state)
    (enabled : system.Enabled event state) : system.Reachable (system.step event state) := by
  obtain ⟨start, events, initial, run⟩ := reachable
  exact ⟨start, events ++ [event], initial, run.append (.cons enabled (.nil _))⟩

/-- An invariant holds in every reachable state. -/
theorem Reachable.invariant (holds : State → Prop)
    (initially : ∀ state, system.Initial state → holds state)
    (step : ∀ state event, system.Enabled event state → holds state →
      holds (system.step event state))
    {state : State} (reachable : system.Reachable state) : holds state := by
  obtain ⟨start, events, initial, run⟩ := reachable
  exact run.invariant holds (fun _ => True) (fun state event _ => step state event)
    (fun _ _ => trivial) (initially start initial)

end System

section Folds

variable {σ : Type u} {α : Type v} {step : σ → α → σ} {holds : σ → Prop} {keeps : σ → α → Prop}

/-- What the first steps of a fold preserve holds of every state up to the end exactly if every
step preserves it. -/
theorem foldl_front_iff {items : List α} {start : σ} (initially : holds start)
    (step_iff : ∀ state item, holds state → item ∈ items → (holds (step state item) ↔ keeps state item)) :
    (∀ front, front <+: items → holds (front.foldl step start)) ↔
      ∀ front item back, items = front ++ item :: back → keeps (front.foldl step start) item := by
  constructor
  · rintro along front item back rfl
    have before := along front (List.prefix_append front _)
    have after := along (front ++ [item]) ⟨back, by simp⟩
    rw [List.foldl_append] at after
    exact (step_iff _ item before (by simp)).mp after
  · intro each front isFront
    induction front generalizing items start with
    | nil => exact initially
    | cons item front ih =>
        rcases isFront with ⟨back, rfl⟩
        have first := (step_iff start item initially (by simp)).mpr (each [] item _ rfl)
        apply ih first _ _ (List.prefix_append front back)
        · exact fun state other held mem => step_iff state other held (List.mem_cons_of_mem _ mem)
        · intro front' other back' split
          exact each (item :: front') other back' (by rw [List.cons_append, List.cons_append, split])

/-- A fold whose steps all come to something, and keep an invariant, comes to something. -/
theorem exists_foldlM_eq (kept : σ → Prop) {step : σ → α → Option σ} {items : List α} {start : σ}
    (initially : kept start)
    (each : ∀ state item, item ∈ items → kept state → ∃ next, step state item = some next ∧ kept next) :
    ∃ final, items.foldlM step start = some final ∧ kept final := by
  induction items generalizing start with
  | nil => exact ⟨start, rfl, initially⟩
  | cons item items ih =>
      rcases each start item List.mem_cons_self initially with ⟨next, first, keeps⟩
      rcases ih keeps fun state other mem => each state other (List.mem_cons_of_mem _ mem) with ⟨final, rest, last⟩
      refine ⟨final, ?_, last⟩
      rw [List.foldlM_cons, first]
      exact rest

end Folds

end Rigor.Library.Runs
