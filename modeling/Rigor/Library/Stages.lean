import Mathlib.Algebra.GroupWithZero.Nat
import Mathlib.Algebra.Order.BigOperators.Group.List
import Mathlib.Algebra.Order.Group.Nat
import Mathlib.Data.List.Forall2
import Rigor.Library.Runs

/-!
# Parallel maps with a barrier between them

A pool of workers maps a function over a list: a worker takes any item that waits, may put questions to a
resource that all workers share, and its result goes to the item's own place.  When all results of the first
map are there, a serial step makes the items of the second map from them.  The resource may answer by what it
was asked before; where it answers every question alike, the outcome is that of the two maps done one item
after the other, whatever the order in which the workers take, ask and finish.
-/

namespace Rigor.Library.Stages

open Rigor.Library.Runs

universe u

/-! ## Computations that ask -/

/-- A computation with questions to a resource. -/
inductive Asking (Q A β : Type u) where
  | done (result : β)
  | ask (question : Q) (next : A → Asking Q A β)

namespace Asking

variable {Q A β γ : Type u} {may : Q → A → Prop} {answer : Q → A}

def map (f : β → γ) : Asking Q A β → Asking Q A γ
  | .done result => .done (f result)
  | .ask question next => .ask question fun a => (next a).map f

/-- The result where every question has one answer. -/
def run (answer : Q → A) : Asking Q A β → β
  | .done result => result
  | .ask question next => (next (answer question)).run answer

/-- The questions that are put on the way to that result. -/
def length (answer : Q → A) : Asking Q A β → Nat
  | .done _ => 0
  | .ask question next => (next (answer question)).length answer + 1

/-- The results under answers that may be given. -/
inductive Yields (may : Q → A → Prop) : Asking Q A β → β → Prop
  | done (result : β) : Yields may (.done result) result
  | ask {question : Q} {next : A → Asking Q A β} {a : A} {result : β} (given : may question a)
      (rest : Yields may (next a) result) : Yields may (.ask question next) result

theorem run_map (f : β → γ) (asking : Asking Q A β) : (asking.map f).run answer = f (asking.run answer) := by
  induction asking with
  | done result => rfl
  | ask question next ih => exact ih _

theorem length_map (f : β → γ) (asking : Asking Q A β) : (asking.map f).length answer = asking.length answer := by
  induction asking with
  | done result => rfl
  | ask question next ih => exact congrArg (· + 1) (ih _)

theorem yields_done_iff {result result' : β} :
    (done result : Asking Q A β).Yields may result' ↔ result' = result := by
  constructor
  · intro yields
    cases yields
    rfl
  · rintro rfl
    exact .done _

theorem yields_map_iff {f : β → γ} {asking : Asking Q A β} {result : γ} :
    (asking.map f).Yields may result ↔ ∃ first, asking.Yields may first ∧ result = f first := by
  induction asking with
  | done first =>
      rw [map, yields_done_iff]
      constructor
      · intro same
        exact ⟨first, .done first, same⟩
      · rintro ⟨first', yields, rfl⟩
        rw [yields_done_iff.mp yields]
  | ask question next ih =>
      constructor
      · intro yields
        cases yields with
        | ask given rest =>
            rcases (ih _).mp rest with ⟨first, yields, same⟩
            exact ⟨first, .ask given yields, same⟩
      · rintro ⟨first, yields, same⟩
        cases yields with
        | ask given rest => exact .ask given ((ih _).mpr ⟨first, rest, same⟩)

/-- With one answer for every question there is one result. -/
theorem yields_eq_iff {asking : Asking Q A β} {result : β} :
    asking.Yields (fun question a => a = answer question) result ↔ result = asking.run answer := by
  induction asking with
  | done first => exact yields_done_iff
  | ask question next ih =>
      rw [run, ← ih]
      constructor
      · intro yields
        cases yields with
        | ask given rest => exact given ▸ rest
      · exact .ask rfl

end Asking

/-- What all workers ask: its state, and how it answers a question and goes on. -/
structure Resource (Q A R : Type u) where
  start : R
  reply : Q → R → A × R

namespace Resource

variable {Q A R : Type u}

/-- The state after some questions. -/
def after (resource : Resource Q A R) (asked : List Q) : R :=
  asked.foldl (fun state question => (resource.reply question state).2) resource.start

/-- Whatever was asked before, a question gets an answer that may be given. -/
def Gives (resource : Resource Q A R) (may : Q → A → Prop) : Prop :=
  ∀ asked question, may question (resource.reply question (resource.after asked)).1

/-- Whatever was asked before, a question gets its answer. -/
def Steady (resource : Resource Q A R) (answer : Q → A) : Prop :=
  resource.Gives fun question a => a = answer question

theorem gives_true (resource : Resource Q A R) : resource.Gives fun _ _ => True :=
  fun _ _ => trivial

theorem after_concat (resource : Resource Q A R) (asked : List Q) (question : Q) :
    resource.after (asked ++ [question]) = (resource.reply question (resource.after asked)).2 := by
  rw [after, List.foldl_concat]
  rfl

end Resource

/-! ## One pool -/

/-- The place of an item in a pool. -/
inductive Slot (Q A α β : Type u) where
  | waiting (item : α)
  | running (rest : Asking Q A β)
  | done (result : β)

namespace Slot

variable {Q A R α β : Type u} {f : α → Asking Q A β} {may : Q → A → Prop} {answer : Q → A} {item : α}
  {slot : Slot Q A α β}

/-- A worker takes the item. -/
def take (f : α → Asking Q A β) : Slot Q A α β → Slot Q A α β
  | .waiting item => .running (f item)
  | slot => slot

/-- The worker of the item goes on with an answer. -/
def resume (a : A) : Slot Q A α β → Slot Q A α β
  | .running (.ask _ next) => .running (next a)
  | slot => slot

/-- The worker of the item is through. -/
def finish : Slot Q A α β → Slot Q A α β
  | .running (.done result) => .done result
  | slot => slot

def result? : Slot Q A α β → Option β
  | .done result => some result
  | _ => none

/-- The events that are left for an item. -/
def rest (answer : Q → A) (f : α → Asking Q A β) : Slot Q A α β → Nat
  | .waiting item => (f item).length answer + 2
  | .running asking => asking.length answer + 1
  | .done _ => 0

/-- The slot is that of `item` in a pool that maps `f`. -/
def Of (may : Q → A → Prop) (f : α → Asking Q A β) (item : α) : Slot Q A α β → Prop
  | .waiting item' => item' = item
  | .running asking => ∀ result, asking.Yields may result → (f item).Yields may result
  | .done result => (f item).Yields may result

theorem Of.take (holds : slot.Of may f item) : (slot.take f).Of may f item := by
  cases slot with
  | waiting item' =>
      have same : item' = item := holds
      rw [same]
      exact fun _ yields => yields
  | running asking => exact holds
  | done result => exact holds

theorem Of.resume {question : Q} {next : A → Asking Q A β} (holds : (running (.ask question next)).Of may f item)
    {a : A} (given : may question a) : (running (next a) : Slot Q A α β).Of may f item :=
  fun result yields => holds result (.ask given yields)

theorem Of.finish (holds : slot.Of may f item) : slot.finish.Of may f item := by
  cases slot with
  | waiting item' => exact holds
  | running asking =>
      cases asking with
      | done result => exact holds result (.done result)
      | ask question next => exact holds
  | done result => exact holds

end Slot

/-- What a worker does in a pool: it takes the item of a place, it asks for it, or it is through with it. -/
inductive Move where
  | take (place : Nat)
  | ask (place : Nat)
  | finish (place : Nat)

section Pool

variable {Q A R α β : Type u} {f : α → Asking Q A β} {may : Q → A → Prop} {answer : Q → A}
  {resource : Resource Q A R} {items : List α} {slots : List (Slot Q A α β)} {state : R}

/-- The slots of a pool in which nothing has happened. -/
def opened (items : List α) : List (Slot Q A α β) :=
  items.map .waiting

/-- The results that are there, in the order of the places. -/
def collected (slots : List (Slot Q A α β)) : List β :=
  slots.filterMap Slot.result?

/-- All workers of the pool are through. -/
def Through (slots : List (Slot Q A α β)) : Prop :=
  ∀ slot ∈ slots, slot.result?.isSome = true

/-- The events that are left for a pool. -/
def remaining (answer : Q → A) (f : α → Asking Q A β) (slots : List (Slot Q A α β)) : Nat :=
  (slots.map (Slot.rest answer f)).sum

/-- The events of a pool of the items. -/
def work (answer : Q → A) (f : α → Asking Q A β) (items : List α) : Nat :=
  (items.map fun item => (f item).length answer + 2).sum

def Move.Enabled : Move → List (Slot Q A α β) → Prop
  | .take place, slots => ∃ item, slots[place]? = some (.waiting item)
  | .ask place, slots => ∃ question next, slots[place]? = some (.running (.ask question next))
  | .finish place, slots => ∃ result, slots[place]? = some (.running (.done result))

/-- The worker of the place asks the resource. -/
def consult (resource : Resource Q A R) (place : Nat) (slots : List (Slot Q A α β)) (state : R) :
    List (Slot Q A α β) × R :=
  match slots[place]? with
  | some (.running (.ask question _)) =>
      let (a, state') := resource.reply question state
      (slots.modify place (Slot.resume a), state')
  | _ => (slots, state)

def Move.apply (resource : Resource Q A R) (f : α → Asking Q A β) :
    Move → List (Slot Q A α β) → R → List (Slot Q A α β) × R
  | .take place, slots, state => (slots.modify place (Slot.take f), state)
  | .ask place, slots, state => consult resource place slots state
  | .finish place, slots, state => (slots.modify place Slot.finish, state)

/-- The slots belong to the items. -/
def Serves (may : Q → A → Prop) (f : α → Asking Q A β) (items : List α) (slots : List (Slot Q A α β)) : Prop :=
  List.Forall₂ (fun item slot => slot.Of may f item) items slots

/-- The resource is in a state that questions lead to. -/
def Reached (resource : Resource Q A R) (state : R) : Prop :=
  ∃ asked, state = resource.after asked

theorem reached_start (resource : Resource Q A R) : Reached resource resource.start :=
  ⟨[], rfl⟩

theorem Reached.reply (reached : Reached resource state) (question : Q) :
    Reached resource (resource.reply question state).2 := by
  rcases reached with ⟨asked, rfl⟩
  exact ⟨asked ++ [question], (resource.after_concat asked question).symm⟩

theorem Reached.given (reached : Reached resource state) (gives : resource.Gives may) (question : Q) :
    may question (resource.reply question state).1 := by
  rcases reached with ⟨asked, rfl⟩
  exact gives asked question

theorem consult_of_getElem? {place : Nat} {question : Q} {next : A → Asking Q A β}
    (found : slots[place]? = some (.running (.ask question next))) :
    consult resource place slots state =
      (slots.modify place (Slot.resume (resource.reply question state).1),
        (resource.reply question state).2) := by
  rw [consult, found]

theorem serves_opened (may : Q → A → Prop) (f : α → Asking Q A β) (items : List α) :
    Serves may f items (opened items) := by
  rw [Serves, opened, List.forall₂_map_right_iff, List.forall₂_same]
  exact fun _ _ => rfl

/-- A change of one slot that keeps what it belongs to. -/
theorem Serves.modify {change : Slot Q A α β → Slot Q A α β} (serves : Serves may f items slots) {place : Nat}
    (keeps : ∀ item slot, slots[place]? = some slot → slot.Of may f item → (change slot).Of may f item) :
    Serves may f items (slots.modify place change) := by
  unfold Serves at serves ⊢
  induction serves generalizing place with
  | nil => simp
  | cons head tail ih =>
      cases place with
      | zero => exact .cons (keeps _ _ rfl head) tail
      | succ place => exact .cons head (ih keeps)

theorem Serves.apply (serves : Serves may f items slots) (gives : resource.Gives may)
    (reached : Reached resource state) {move : Move} (enabled : move.Enabled slots) :
    Serves may f items (move.apply resource f slots state).1 ∧
      Reached resource (move.apply resource f slots state).2 := by
  cases move with
  | take place => exact ⟨serves.modify fun _ _ _ holds => holds.take, reached⟩
  | finish place => exact ⟨serves.modify fun _ _ _ holds => holds.finish, reached⟩
  | ask place =>
      rcases enabled with ⟨question, next, found⟩
      rw [Move.apply, consult_of_getElem? found]
      refine ⟨serves.modify ?_, reached.reply question⟩
      intro item slot here holds
      rw [found] at here
      cases here
      exact holds.resume (reached.given gives question)

theorem remaining_modify {slot : Slot Q A α β} {place : Nat} {change : Slot Q A α β → Slot Q A α β}
    (found : slots[place]? = some slot) (less : (change slot).rest answer f + 1 = slot.rest answer f) :
    remaining answer f (slots.modify place change) + 1 = remaining answer f slots := by
  induction slots generalizing place with
  | nil => cases found
  | cons head slots ih =>
      cases place with
      | zero =>
          cases found
          simp only [remaining, List.modify_zero_cons, List.map_cons, List.sum_cons]
          omega
      | succ place =>
          have tail := ih found
          simp only [remaining, List.modify_succ_cons, List.map_cons, List.sum_cons] at tail ⊢
          omega

theorem remaining_apply (steady : resource.Steady answer) (reached : Reached resource state) {move : Move}
    (enabled : move.Enabled slots) :
    remaining answer f (move.apply resource f slots state).1 + 1 = remaining answer f slots := by
  cases move with
  | take place =>
      rcases enabled with ⟨item, found⟩
      exact remaining_modify found rfl
  | finish place =>
      rcases enabled with ⟨result, found⟩
      exact remaining_modify found rfl
  | ask place =>
      rcases enabled with ⟨question, next, found⟩
      rw [Move.apply, consult_of_getElem? found]
      apply remaining_modify found
      rw [reached.given steady question]
      rfl

theorem remaining_opened (answer : Q → A) (f : α → Asking Q A β) (items : List α) :
    remaining answer f (opened items) = work answer f items := by
  rw [remaining, opened, List.map_map]
  rfl

theorem work_eq (answer : Q → A) (f : α → Asking Q A β) (items : List α) :
    work answer f items = (items.map fun item => (f item).length answer).sum + 2 * items.length := by
  induction items with
  | nil => rfl
  | cons item items ih =>
      rw [work] at ih ⊢
      simp only [List.map_cons, List.sum_cons, List.length_cons, ih]
      omega

theorem remaining_of_through (through : Through slots) : remaining answer f slots = 0 := by
  rw [remaining, List.sum_eq_zero_iff]
  intro n mem
  rcases List.mem_map.mp mem with ⟨slot, inside, rfl⟩
  have some_ := through slot inside
  cases slot with
  | done result => rfl
  | waiting item => cases some_
  | running asking => cases some_

/-- A pool that is not through has a worker that can go on. -/
theorem exists_enabled (left : ¬Through slots) : ∃ move : Move, move.Enabled slots := by
  unfold Through at left
  push Not at left
  rcases left with ⟨slot, mem, busy⟩
  rcases List.mem_iff_getElem?.mp mem with ⟨place, found⟩
  cases slot with
  | waiting item => exact ⟨.take place, item, found⟩
  | done result => exact absurd rfl busy
  | running asking =>
      cases asking with
      | done result => exact ⟨.finish place, result, found⟩
      | ask question next => exact ⟨.ask place, question, next, found⟩

theorem Serves.collected (serves : Serves may f items slots) (through : Through slots) :
    List.Forall₂ (fun item result => (f item).Yields may result) items (collected slots) := by
  unfold Serves at serves
  induction serves with
  | nil => exact .nil
  | @cons item slot items slots head tail ih =>
      have rest := ih fun slot mem => through slot (List.mem_cons_of_mem _ mem)
      have some_ := through slot List.mem_cons_self
      cases slot with
      | done result => exact .cons head rest
      | waiting item' => cases some_
      | running asking => cases some_

theorem forall₂_yields_eq_iff {results : List β} :
    List.Forall₂ (fun item result => (f item).Yields (fun question a => a = answer question) result)
      items results ↔
      results = items.map fun item => (f item).run answer := by
  simp only [Asking.yields_eq_iff]
  rw [← List.forall₂_eq_eq_eq, List.forall₂_map_right_iff]
  constructor
  · intro all
    exact all.flip
  · intro all
    exact all.flip

end Pool

/-! ## Two pools and the barrier -/

section Stages

variable {Q A R α β γ δ σ ρ : Type u}

/-- The serial parts of a two-stage run and the maps of its pools. -/
structure Plan (Q A α β γ δ σ ρ : Type u) where
  first : α → Asking Q A β
  /-- What is kept of the first results, and the items of the second pool. -/
  barrier : List β → σ × List γ
  second : σ → γ → Asking Q A δ
  last : σ → List δ → ρ

/-- The pool that is open, and the state of the resource. -/
inductive State (Q A R α β γ δ σ ρ : Type u) where
  | first (slots : List (Slot Q A α β)) (state : R)
  | second (kept : σ) (slots : List (Slot Q A γ δ)) (state : R)
  | finished (outcome : ρ)

/-- A worker of the running pool moves, or the main thread goes on. -/
inductive Event where
  | worker (move : Move)
  | proceed

def Event.Enabled : Event → State Q A R α β γ δ σ ρ → Prop
  | .worker move, .first slots _ => move.Enabled slots
  | .worker move, .second _ slots _ => move.Enabled slots
  | .worker _, .finished _ => False
  | .proceed, .first slots _ => Through slots
  | .proceed, .second _ slots _ => Through slots
  | .proceed, .finished _ => False

namespace Plan

variable (plan : Plan Q A α β γ δ σ ρ) (resource : Resource Q A R)

def step : Event → State Q A R α β γ δ σ ρ → State Q A R α β γ δ σ ρ
  | .worker move, .first slots state =>
      let (slots', state') := move.apply resource plan.first slots state
      .first slots' state'
  | .worker move, .second kept slots state =>
      let (slots', state') := move.apply resource (plan.second kept) slots state
      .second kept slots' state'
  | .worker _, .finished outcome => .finished outcome
  | .proceed, .first slots state =>
      let (kept, items) := plan.barrier (collected slots)
      .second kept (opened items) state
  | .proceed, .second kept slots _ => .finished (plan.last kept (collected slots))
  | .proceed, .finished outcome => .finished outcome

/-- The state in which nothing has happened. -/
def initial (items : List α) : State Q A R α β γ δ σ ρ :=
  .first (opened items) resource.start

def system (items : List α) : System (State Q A R α β γ δ σ ρ) Event where
  Initial state := state = initial resource items
  Enabled := Event.Enabled
  step := plan.step resource

/-! ### Outcomes -/

variable (may : Q → A → Prop) (answer : Q → A)

/-- The workers of the first pool come to the results. -/
def Firsts (items : List α) (results : List β) : Prop :=
  List.Forall₂ (fun item result => (plan.first item).Yields may result) items results

/-- The workers of the second pool come to the results. -/
def Seconds (kept : σ) (items : List γ) (results : List δ) : Prop :=
  List.Forall₂ (fun item result => (plan.second kept item).Yields may result) items results

/-- What the two maps come to under answers that may be given. -/
def Outcome (items : List α) (outcome : ρ) : Prop :=
  ∃ results results', plan.Firsts may items results ∧
    plan.Seconds may (plan.barrier results).1 (plan.barrier results).2 results' ∧
    outcome = plan.last (plan.barrier results).1 results'

/-- What the barrier makes of the items. -/
def met (items : List α) : σ × List γ :=
  plan.barrier (items.map fun item => (plan.first item).run answer)

/-- The two maps and the serial parts, one item after the other. -/
def serial (items : List α) : ρ :=
  plan.last (plan.met answer items).1
    ((plan.met answer items).2.map fun item => (plan.second (plan.met answer items).1 item).run answer)

/-- The events of the two pools. -/
def labour (items : List α) : Nat :=
  work answer plan.first items + work answer (plan.second (plan.met answer items).1) (plan.met answer items).2

variable {plan} {resource} {may} {answer} {items : List α} {state final : State Q A R α β γ δ σ ρ}

theorem outcome_eq_iff {outcome : ρ} :
    plan.Outcome (fun question a => a = answer question) items outcome ↔ outcome = plan.serial answer items := by
  constructor
  · rintro ⟨results, results', firsts, seconds, rfl⟩
    rw [Firsts, forall₂_yields_eq_iff] at firsts
    subst firsts
    rw [Seconds, forall₂_yields_eq_iff] at seconds
    subst seconds
    rfl
  · rintro rfl
    exact ⟨_, _, forall₂_yields_eq_iff.mpr rfl, forall₂_yields_eq_iff.mpr rfl, rfl⟩

/-! ### Runs -/

/-- How a state of a run belongs to the items. -/
def Serving (plan : Plan Q A α β γ δ σ ρ) (resource : Resource Q A R) (may : Q → A → Prop) (items : List α) :
    State Q A R α β γ δ σ ρ → Prop
  | .first slots state => Serves may plan.first items slots ∧ Reached resource state
  | .second kept slots state =>
      (∃ results, plan.Firsts may items results ∧ kept = (plan.barrier results).1 ∧
        Serves may (plan.second kept) (plan.barrier results).2 slots) ∧ Reached resource state
  | .finished outcome => plan.Outcome may items outcome

theorem serving_initial (plan : Plan Q A α β γ δ σ ρ) (resource : Resource Q A R) (may : Q → A → Prop)
    (items : List α) : plan.Serving resource may items (initial resource items) :=
  ⟨serves_opened may plan.first items, reached_start resource⟩

theorem serving_step (gives : resource.Gives may) {event : Event} (enabled : event.Enabled state)
    (serving : plan.Serving resource may items state) :
    plan.Serving resource may items (plan.step resource event state) := by
  cases state with
  | first slots state =>
      rcases serving with ⟨serves, reached⟩
      cases event with
      | worker move => exact serves.apply gives reached enabled
      | proceed => exact ⟨⟨collected slots, serves.collected enabled, rfl, serves_opened _ _ _⟩, reached⟩
  | second kept slots state =>
      rcases serving with ⟨⟨results, firsts, keeps, serves⟩, reached⟩
      cases event with
      | worker move =>
          have next := serves.apply gives reached enabled
          exact ⟨⟨results, firsts, keeps, next.1⟩, next.2⟩
      | proceed =>
          subst keeps
          exact ⟨results, collected slots, firsts, serves.collected enabled, rfl⟩
  | finished outcome => cases event <;> exact enabled.elim

theorem exists_enabled_iff : (∃ event : Event, event.Enabled state) ↔ ∀ outcome, state ≠ .finished outcome := by
  cases state with
  | first slots state =>
      refine iff_of_true ?_ (by simp)
      by_cases through : Through slots
      · exact ⟨.proceed, through⟩
      · rcases Stages.exists_enabled through with ⟨move, enabled⟩
        exact ⟨.worker move, enabled⟩
  | second kept slots state =>
      refine iff_of_true ?_ (by simp)
      by_cases through : Through slots
      · exact ⟨.proceed, through⟩
      · rcases Stages.exists_enabled through with ⟨move, enabled⟩
        exact ⟨.worker move, enabled⟩
  | finished outcome =>
      refine iff_of_false ?_ (by simp)
      rintro ⟨event, enabled⟩
      cases event <;> exact enabled

theorem serving_of_run {events : List Event} (gives : resource.Gives may)
    (run : (plan.system resource items).Run state events final)
    (serving : plan.Serving resource may items state) : plan.Serving resource may items final :=
  run.invariant (plan.Serving resource may items) (fun _ => True)
    (fun _ _ _ enabled holds => serving_step gives enabled holds) (fun _ _ => trivial) serving

/-- What a run that has ended has come to. -/
theorem outcome_of_run {events : List Event} {outcome : ρ} (gives : resource.Gives may)
    (run : (plan.system resource items).Run (initial resource items) events (.finished outcome)) :
    plan.Outcome may items outcome :=
  serving_of_run gives run (serving_initial plan resource may items)

/-! ### Answers that never change -/

/-- The events that are left for a run of the items. -/
def left (plan : Plan Q A α β γ δ σ ρ) (answer : Q → A) (items : List α) : State Q A R α β γ δ σ ρ → Nat
  | .first slots _ =>
      remaining answer plan.first slots + 1 +
        (work answer (plan.second (plan.met answer items).1) (plan.met answer items).2 + 1)
  | .second kept slots _ => remaining answer (plan.second kept) slots + 1
  | .finished _ => 0

/-- A state of a run where every question has one answer. -/
def Steadily (plan : Plan Q A α β γ δ σ ρ) (resource : Resource Q A R) (answer : Q → A) (items : List α)
    (state : State Q A R α β γ δ σ ρ) : Prop :=
  plan.Serving resource (fun question a => a = answer question) items state

theorem left_step (steady : resource.Steady answer) {event : Event} (enabled : event.Enabled state)
    (serving : plan.Steadily resource answer items state) :
    plan.left answer items (plan.step resource event state) + 1 = plan.left answer items state := by
  cases state with
  | first slots state =>
      cases event with
      | worker move =>
          have less := remaining_apply (f := plan.first) steady serving.2 enabled
          simp only [step, left]
          omega
      | proceed =>
          have through : Through slots := enabled
          have results : collected slots = items.map fun item => (plan.first item).run answer :=
            forall₂_yields_eq_iff.mp (serving.1.collected through)
          rw [step, results, left, left, remaining_of_through through]
          change remaining answer _ (opened (plan.met answer items).2) + 1 + 1 = _
          rw [remaining_opened]
          change work answer (plan.second (plan.met answer items).1) (plan.met answer items).2 + 1 + 1 = _
          omega
  | second kept slots state =>
      cases event with
      | worker move =>
          have less := remaining_apply (f := plan.second kept) steady serving.2 enabled
          simp only [step, left]
          omega
      | proceed =>
          have through : Through slots := enabled
          rw [step, left, left, remaining_of_through through]
  | finished outcome => cases event <;> exact enabled.elim

theorem length_of_run (steady : resource.Steady answer) {events : List Event}
    (run : (plan.system resource items).Run state events final)
    (serving : plan.Steadily resource answer items state) :
    plan.left answer items final + events.length = plan.left answer items state := by
  induction run with
  | nil => rfl
  | cons enabled rest ih =>
      rw [List.length_cons, ← Nat.add_assoc, ih (serving_step steady enabled serving)]
      exact left_step steady enabled serving

/-- Some run leads to the serial outcome. -/
theorem exists_run (steady : resource.Steady answer) (n : Nat) (left : plan.left answer items state = n)
    (serving : plan.Steadily resource answer items state) :
    ∃ events, (plan.system resource items).Run state events (.finished (plan.serial answer items)) := by
  induction n generalizing state with
  | zero =>
      have ended : ∃ outcome, state = .finished outcome := by
        by_contra running
        push Not at running
        rcases exists_enabled_iff.mpr running with ⟨event, enabled⟩
        have less := left_step steady enabled serving
        exact absurd (less.trans left) (Nat.succ_ne_zero _)
      rcases ended with ⟨outcome, rfl⟩
      rw [← outcome_eq_iff.mp serving]
      exact ⟨[], .nil _⟩
  | succ n ih =>
      have running : ∀ outcome, state ≠ .finished outcome := by
        rintro outcome rfl
        exact absurd left.symm (Nat.succ_ne_zero n)
      rcases exists_enabled_iff.mpr running with ⟨event, enabled⟩
      have less := left_step steady enabled serving
      rcases ih (Nat.succ.inj (less.trans left)) (serving_step steady enabled serving) with ⟨events, run⟩
      exact ⟨event :: events, .cons enabled run⟩

/-- Every run comes to an end, and where nothing is left to do the outcome is the serial one. -/
theorem run_serial (steady : resource.Steady answer) {events : List Event}
    (run : (plan.system resource items).Run (initial resource items) events final) :
    events.length ≤ plan.labour answer items + 2 ∧
      ((∀ event : Event, ¬event.Enabled final) ↔ final = .finished (plan.serial answer items)) := by
  have initially : plan.Steadily resource answer items (initial resource items) :=
    serving_initial plan resource _ items
  constructor
  · have length := length_of_run steady run initially
    have total : plan.left answer items (initial resource items : State Q A R α β γ δ σ ρ) =
        plan.labour answer items + 2 := by
      rw [initial, left, remaining_opened, labour]
      omega
    omega
  · have serving := serving_of_run steady run initially
    rw [← not_exists, exists_enabled_iff]
    push Not
    constructor
    · rintro ⟨outcome, rfl⟩
      rw [outcome_eq_iff.mp serving]
    · intro ended
      exact ⟨_, ended⟩

end Plan

end Stages

end Rigor.Library.Stages
