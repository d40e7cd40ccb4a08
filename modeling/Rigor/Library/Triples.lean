/-!
# Programs that record events

A program is the relation between a start state, the events it records, how it ends and its
last state.  A program ends with a value or is aborted by a signal.  A triple says what the
events and the end of every run from some states satisfy.
-/

namespace Rigor.Library.Triples

universe u v w x y

inductive Exit (κ : Type u) (α : Type v) where
  | done (value : α)
  | aborted (signal : κ)

/-- The runs of a program over states `σ` that records events `ε`. -/
def Prog (σ : Type u) (ε : Type v) (κ : Type w) (α : Type x) :=
  σ → List ε → Exit κ α → σ → Prop

namespace Prog

variable {σ : Type u} {ε : Type v} {κ : Type w} {α : Type x} {β : Type y}

/-- End at once. -/
def exit (last : Exit κ α) : Prog σ ε κ α :=
  fun s events e s' => events = [] ∧ e = last ∧ s' = s

def pure (value : α) : Prog σ ε κ α :=
  exit (.done value)

def halt (signal : κ) : Prog σ ε κ α :=
  exit (.aborted signal)

/-- End with some value of a set. -/
def choose (allowed : α → Prop) : Prog σ ε κ α :=
  fun s events e s' => events = [] ∧ s' = s ∧ ∃ value, allowed value ∧ e = .done value

def either (first second : Prog σ ε κ α) : Prog σ ε κ α :=
  fun s events e s' => first s events e s' ∨ second s events e s'

/-- The runs of a program where a condition holds. -/
def assuming (condition : Prop) (m : Prog σ ε κ α) : Prog σ ε κ α :=
  fun s events e s' => condition ∧ m s events e s'

def emit (event : ε) : Prog σ ε κ Unit :=
  fun s events e s' => events = [event] ∧ e = .done () ∧ s' = s

def read (field : σ → α) : Prog σ ε κ α :=
  fun s events e s' => events = [] ∧ e = .done (field s) ∧ s' = s

def modify (update : σ → σ) : Prog σ ε κ Unit :=
  fun s events e s' => events = [] ∧ e = .done () ∧ s' = update s

/-- Run the second program on how the first one ended. -/
def settle (m : Prog σ ε κ α) (next : Exit κ α → Prog σ ε κ β) : Prog σ ε κ β :=
  fun s events e s' => ∃ e₁ s₁ events₁ events₂,
    m s events₁ e₁ s₁ ∧ next e₁ s₁ events₂ e s' ∧ events = events₁ ++ events₂

/-- An aborted run skips the second program. -/
def bind (m : Prog σ ε κ α) (next : α → Prog σ ε κ β) : Prog σ ε κ β :=
  settle m fun
    | .done value => next value
    | .aborted signal => halt signal

end Prog

open Prog

variable {σ : Type u} {ε : Type v} {κ : Type w} {α : Type x} {β : Type y}

/-- Every run from a state of `pre` records allowed events only and ends in `post`. -/
def Triple (pre : σ → Prop) (m : Prog σ ε κ α) (allowed : ε → Prop)
    (post : Exit κ α → σ → Prop) : Prop :=
  ∀ ⦃s events e s'⦄, pre s → m s events e s' → (∀ event ∈ events, allowed event) ∧ post e s'

theorem bind_of_pure (value : α) (next : α → Prog σ ε κ β) :
    Prog.bind (Prog.pure value) next = next value := by
  funext s events e s'
  apply propext
  constructor
  · rintro ⟨_, _, _, _, ⟨rfl, rfl, rfl⟩, rest, rfl⟩
    exact rest
  · intro rest
    exact ⟨.done value, s, [], events, ⟨rfl, rfl, rfl⟩, rest, rfl⟩

/-- A triple whose postcondition looks at runs that were not aborted. -/
def onDone (post : α → σ → Prop) : Exit κ α → σ → Prop
  | .done value, s => post value s
  | .aborted _, _ => True

/-- Every run keeps an invariant and records allowed events only. -/
abbrev Keeps (invariant : σ → Prop) (m : Prog σ ε κ α) (allowed : ε → Prop) : Prop :=
  Triple invariant m allowed fun _ => invariant

namespace Triple

variable {pre pre' mid : σ → Prop} {allowed : ε → Prop} {m : Prog σ ε κ α}
  {post post' : Exit κ α → σ → Prop}

theorem weaken (holds : Triple pre m allowed post) (before : ∀ s, pre' s → pre s)
    (after : ∀ e s, post e s → post' e s) : Triple pre' m allowed post' := by
  intro s events e s' start run
  have ended := holds (before s start) run
  exact ⟨ended.1, after e s' ended.2⟩

theorem weakenPre (holds : Triple pre m allowed post) (before : ∀ s, pre' s → pre s) :
    Triple pre' m allowed post :=
  holds.weaken before fun _ _ => id

theorem weakenPost (holds : Triple pre m allowed post) (after : ∀ e s, post e s → post' e s) :
    Triple pre m allowed post' :=
  holds.weaken (fun _ => id) after

/-- A second triple about the same program adds its postcondition. -/
theorem also {more : ε → Prop} (first : Triple pre m allowed post)
    (second : Triple pre' m more post') :
    Triple (fun s => pre s ∧ pre' s) m allowed fun e s => post e s ∧ post' e s := by
  intro s events e s' start run
  have left := first start.1 run
  exact ⟨left.1, left.2, (second start.2 run).2⟩

/-- The same for completed runs. -/
theorem alsoDone {more : ε → Prop} {done done' : α → σ → Prop}
    (first : Triple pre m allowed (onDone done)) (second : Triple pre' m more (onDone done')) :
    Triple (fun s => pre s ∧ pre' s) m allowed
      (onDone fun value s => done value s ∧ done' value s) := by
  apply (first.also second).weakenPost
  intro e s ended
  cases e with
  | done value => exact ended
  | aborted signal => trivial

/-- A completed run satisfies more than a postcondition that it implies. -/
theorem weakenDone {done done' : α → σ → Prop} (holds : Triple pre m allowed (onDone done))
    (after : ∀ value s, done value s → done' value s) :
    Triple pre m allowed (onDone done') := by
  apply holds.weakenPost
  intro e s ended
  cases e with
  | done value => exact after value s ended
  | aborted signal => trivial

theorem allow {more : ε → Prop} (holds : Triple pre m allowed post)
    (within : ∀ event, allowed event → more event) : Triple pre m more post := by
  intro s events e s' start run
  have ended := holds start run
  exact ⟨fun event mem => within event (ended.1 event mem), ended.2⟩

/-- A fact about no state moves out of the precondition. -/
theorem of_fact {fact : Prop} (holds : fact → Triple pre m allowed post) :
    Triple (fun s => pre s ∧ fact) m allowed post :=
  fun _ _ _ _ start run => holds start.2 start.1 run

/-- The state a run starts in may be named. -/
theorem of_start (holds : ∀ s₀, pre s₀ → Triple (fun s => s = s₀) m allowed post) :
    Triple pre m allowed post := by
  intro s events e s' start run
  exact holds s start rfl run

theorem exit {last : Exit κ α} (ends : ∀ s, pre s → post last s) :
    Triple pre (Prog.exit last) allowed post := by
  rintro s events e s' start ⟨rfl, rfl, rfl⟩
  exact ⟨nofun, ends _ start⟩

theorem pure {value : α} (ends : ∀ s, pre s → post (.done value) s) :
    Triple pre (Prog.pure value) allowed post :=
  exit ends

theorem halt {signal : κ} (ends : ∀ s, pre s → post (.aborted signal) s) :
    Triple pre (Prog.halt signal) allowed post :=
  exit ends

theorem choose {values : α → Prop}
    (ends : ∀ value s, values value → pre s → post (.done value) s) :
    Triple pre (Prog.choose values) allowed post := by
  rintro s events e s' start ⟨rfl, rfl, value, mem, rfl⟩
  exact ⟨nofun, ends value _ mem start⟩

theorem either {n : Prog σ ε κ α} (first : Triple pre m allowed post)
    (second : Triple pre n allowed post) : Triple pre (Prog.either m n) allowed post := by
  rintro s events e s' start (run | run)
  · exact first start run
  · exact second start run

theorem assuming {condition : Prop} (holds : condition → Triple pre m allowed post) :
    Triple pre (Prog.assuming condition m) allowed post := by
  rintro s events e s' start ⟨given, run⟩
  exact holds given start run

theorem emit {event : ε} {post : Exit κ Unit → σ → Prop}
    (allows : ∀ s, pre s → allowed event ∧ post (.done ()) s) :
    Triple pre (Prog.emit event) allowed post := by
  rintro s events e s' start ⟨rfl, rfl, rfl⟩
  have both := allows _ start
  constructor
  · intro other mem
    rw [List.mem_singleton.mp mem]
    exact both.1
  · exact both.2

theorem read {field : σ → α} (ends : ∀ s, pre s → post (.done (field s)) s) :
    Triple pre (Prog.read field) allowed post := by
  rintro s events e s' start ⟨rfl, rfl, rfl⟩
  exact ⟨nofun, ends _ start⟩

theorem modify {update : σ → σ} {post : Exit κ Unit → σ → Prop}
    (ends : ∀ s, pre s → post (.done ()) (update s)) :
    Triple pre (Prog.modify update) allowed post := by
  rintro s events e s' start ⟨rfl, rfl, rfl⟩
  exact ⟨nofun, ends _ start⟩

theorem settle {between : Exit κ α → σ → Prop} {next : Exit κ α → Prog σ ε κ β}
    {post : Exit κ β → σ → Prop} (first : Triple pre m allowed between)
    (rest : ∀ e, Triple (between e) (next e) allowed post) :
    Triple pre (Prog.settle m next) allowed post := by
  rintro s events e s' start ⟨e₁, s₁, events₁, events₂, run, then_, rfl⟩
  have ended := first start run
  have last := rest e₁ ended.2 then_
  constructor
  · intro event mem
    rcases List.mem_append.mp mem with left | right
    · exact ended.1 event left
    · exact last.1 event right
  · exact last.2

theorem bind {between : Exit κ α → σ → Prop} {next : α → Prog σ ε κ β}
    {post : Exit κ β → σ → Prop} (first : Triple pre m allowed between)
    (rest : ∀ value, Triple (between (.done value)) (next value) allowed post)
    (aborts : ∀ signal s, between (.aborted signal) s → post (.aborted signal) s) :
    Triple pre (Prog.bind m next) allowed post := by
  apply settle first
  intro e
  cases e with
  | done value => exact rest value
  | aborted signal => exact halt (aborts signal)

/-- In a triple about completed runs the abort of the first program needs no proof. -/
theorem bindDone {between : α → σ → Prop} {next : α → Prog σ ε κ β} {post : β → σ → Prop}
    (first : Triple pre m allowed (onDone between))
    (rest : ∀ value, Triple (between value) (next value) allowed (onDone post)) :
    Triple pre (Prog.bind m next) allowed (onDone post) :=
  bind first rest fun _ _ _ => trivial

end Triple

end Rigor.Library.Triples
