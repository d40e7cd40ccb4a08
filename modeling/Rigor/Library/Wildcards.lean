import Mathlib.Data.List.Infix
import Rigor.Library.Fuel

/-!
# Wildcards

A matcher for patterns with wildcards that remembers only the last one.  Between two wildcards every
item takes one item of the text, so an earlier wildcard need not be tried again.
-/

namespace Rigor.Library.Wildcards

open Rigor.Library.Fuel

universe u v

/-- What a pattern starts with: nothing, a wildcard, or a test of one item. -/
inductive Shape (P : Type u) (α : Type v) where
  | stop
  | star (after : P)
  | one (next : α → Option P)

/-- The patterns of a language.  A wildcard is not followed by another, and a test leads to one
place. -/
structure Grammar (P : Type u) (α : Type v) where
  shape : P → Shape P α
  size : P → Nat
  star_size {p q : P} : shape p = .star q → size q < size p
  star_once {p q r : P} : shape p = .star q → shape q ≠ .star r
  one_size {p q : P} {next : α → Option P} {a : α} :
    shape p = .one next → next a = some q → size q < size p
  one_same {p q r : P} {next : α → Option P} {a b : α} :
    shape p = .one next → next a = some q → next b = some r → q = r

/-- A wildcard takes any part of the text. -/
inductive Matches {P : Type u} {α : Type v} (grammar : Grammar P α) : P → List α → Prop where
  | stop {p : P} (shape : grammar.shape p = .stop) : Matches grammar p []
  | star {p q : P} {text : List α} (shape : grammar.shape p = .star q) (skipped : List α)
      (rest : Matches grammar q text) : Matches grammar p (skipped ++ text)
  | one {p q : P} {next : α → Option P} {a : α} {text : List α}
      (shape : grammar.shape p = .one next) (found : next a = some q)
      (rest : Matches grammar q text) : Matches grammar p (a :: text)

/-- The pattern and the text that are left, and both after the last wildcard. -/
structure State (P : Type u) (α : Type v) where
  pattern : P
  text : List α
  retry : Option (P × List α)

section Machine

variable {P : Type u} {α : Type v}

/-- The last wildcard takes one item more. -/
def backtrack (retry : Option (P × List α)) : Bool ⊕ State P α :=
  match retry with
  | some (pattern, _ :: text) => .inr ⟨pattern, text, some (pattern, text)⟩
  | some (_, []) => .inl false
  | none => .inl false

def step (grammar : Grammar P α) (state : State P α) : Bool ⊕ State P α :=
  match grammar.shape state.pattern, state.text with
  | .stop, [] => .inl true
  | .stop, _ :: _ => backtrack state.retry
  | .star after, text =>
      match grammar.shape after, text with
      | .stop, _ => .inl true
      | _, [] => .inl false
      | _, _ :: _ => .inr ⟨after, text, some (after, text)⟩
  | .one _, [] => .inl false
  | .one next, a :: text =>
      match next a with
      | some pattern => .inr ⟨pattern, text, state.retry⟩
      | none => backtrack state.retry

/-- Steps up to an answer. -/
def run (step : State P α → Bool ⊕ State P α) : Nat → State P α → Option Bool
  | 0, _ => none
  | fuel + 1, state =>
      match step state with
      | .inl answer => some answer
      | .inr state => run step fuel state

variable (grammar : Grammar P α)

/-- A match with the last wildcard taking at least one item more. -/
def Later (pattern : P) (text : List α) : Prop :=
  ∃ a skipped rest, text = a :: (skipped ++ rest) ∧ Matches grammar pattern rest

/-- The text matches, now or after backtracking. -/
def Answer (state : State P α) : Prop :=
  Matches grammar state.pattern state.text ∨
    ∃ pattern text, state.retry = some (pattern, text) ∧ Later grammar pattern text

/-- Whatever matches from the last wildcard on, matches from here on after as many items. -/
structure Behind (state : State P α) (pattern : P) (text : List α) : Prop where
  size : grammar.size state.pattern ≤ grammar.size pattern
  taken : ∃ taken, text = taken ++ state.text ∧
    ∀ other, Matches grammar pattern other → ∃ taken' rest, other = taken' ++ rest ∧
      taken'.length = taken.length ∧ Matches grammar state.pattern rest

def Inv (state : State P α) : Prop :=
  ∀ pattern text, state.retry = some (pattern, text) → Behind grammar state pattern text

variable {grammar}

theorem later_cons_iff {pattern : P} {a : α} {text : List α} : Later grammar pattern (a :: text) ↔
    Matches grammar pattern text ∨ Later grammar pattern text := by
  constructor
  · rintro ⟨b, skipped, rest, same, found⟩
    obtain ⟨rfl, rfl⟩ := List.cons.inj same
    cases skipped with
    | nil => exact .inl found
    | cons c skipped => exact .inr ⟨c, skipped, rest, rfl, found⟩
  · rintro (found | ⟨b, skipped, rest, rfl, found⟩)
    · exact ⟨a, [], text, rfl, found⟩
    · exact ⟨a, b :: skipped, rest, rfl, found⟩

theorem not_later_nil {pattern : P} : ¬Later grammar pattern [] := by
  rintro ⟨a, skipped, rest, same, -⟩
  nomatch same

/-- A wildcard matches what its continuation matches now or later. -/
theorem matches_star_iff {p q : P} {text : List α} (shape : grammar.shape p = .star q) :
    Matches grammar p text ↔ Matches grammar q text ∨ Later grammar q text := by
  constructor
  · intro found
    cases found with
    | stop shape' => rw [shape] at shape'; nomatch shape'
    | one shape' => rw [shape] at shape'; nomatch shape'
    | star shape' skipped rest =>
        rw [shape] at shape'
        obtain rfl := Shape.star.inj shape'
        cases skipped with
        | nil => exact .inl rest
        | cons a skipped => exact .inr ⟨a, skipped, _, rfl, rest⟩
  · rintro (found | ⟨a, skipped, rest, rfl, found⟩)
    · exact .star shape [] found
    · exact .star shape (a :: skipped) found

theorem matches_one_iff {p : P} {next : α → Option P} {text : List α}
    (shape : grammar.shape p = .one next) : Matches grammar p text ↔
      ∃ a rest q, text = a :: rest ∧ next a = some q ∧ Matches grammar q rest := by
  constructor
  · intro found
    cases found with
    | stop shape' => rw [shape] at shape'; nomatch shape'
    | star shape' => rw [shape] at shape'; nomatch shape'
    | one shape' found rest =>
        rw [shape] at shape'
        obtain rfl := Shape.one.inj shape'
        exact ⟨_, _, _, rfl, found, rest⟩
  · rintro ⟨a, rest, q, rfl, found, inner⟩
    exact .one shape found inner

theorem matches_stop_iff {p : P} {text : List α} (shape : grammar.shape p = .stop) :
    Matches grammar p text ↔ text = [] := by
  constructor
  · intro found
    cases found with
    | stop => rfl
    | star shape' => rw [shape] at shape'; nomatch shape'
    | one shape' => rw [shape] at shape'; nomatch shape'
  · rintro rfl
    exact .stop shape

/-- With no text left nothing can be gained by backtracking. -/
theorem not_later_of_behind {state : State P α} {pattern : P} {text : List α}
    (empty : state.text = []) (behind : Behind grammar state pattern text) :
    ¬Later grammar pattern text := by
  rintro ⟨a, skipped, rest, same, found⟩
  rcases behind.taken with ⟨taken, whole, others⟩
  rcases others rest found with ⟨taken', rest', rfl, size, -⟩
  rw [empty, List.append_nil] at whole
  have total := congrArg List.length (whole.symm.trans same)
  simp only [List.length_cons, List.length_append] at total
  omega

/-- A wildcard matches whatever an earlier one could leave to it. -/
theorem matches_of_later {state : State P α} {pattern q : P} {text : List α}
    (shape : grammar.shape state.pattern = .star q) (behind : Behind grammar state pattern text)
    (later : Later grammar pattern text) : Matches grammar state.pattern state.text := by
  rcases later with ⟨a, skipped, rest, same, found⟩
  rcases behind.taken with ⟨taken, whole, others⟩
  rcases others rest found with ⟨taken', rest', rfl, size, inner⟩
  have total := congrArg List.length (whole.symm.trans same)
  simp only [List.length_cons, List.length_append] at total
  have ends : rest' <:+ state.text := by
    have inText : rest' <:+ text := ⟨a :: (skipped ++ taken'), by rw [same]; simp⟩
    exact List.suffix_of_suffix_length_le inText ⟨taken, whole.symm⟩ (by omega)
  rcases ends with ⟨front, split⟩
  rw [← split]
  cases inner with
  | stop shape' => rw [shape] at shape'; nomatch shape'
  | one shape' => rw [shape] at shape'; nomatch shape'
  | star shape' skipped' inner =>
      rw [← List.append_assoc]
      exact .star shape' _ inner

/-! ## Steps -/

/-- The place after the last wildcard. -/
def State.place (grammar : Grammar P α) (state : State P α) : Nat × Nat :=
  match state.retry with
  | some (pattern, text) => (grammar.size pattern, text.length)
  | none => (grammar.size state.pattern + 1, 0)

/-- Wildcards are passed, then their texts get shorter, then the pattern does. -/
def Less (grammar : Grammar P α) (state state' : State P α) : Prop :=
  Prod.Lex (· < ·) (Prod.Lex (· < ·) (· < ·))
    ((state.place grammar).1, (state.place grammar).2, grammar.size state.pattern)
    ((state'.place grammar).1, (state'.place grammar).2, grammar.size state'.pattern)

theorem wellFounded_less (grammar : Grammar P α) : WellFounded (Less grammar) :=
  InvImage.wf (fun state : State P α =>
      ((state.place grammar).1, (state.place grammar).2, grammar.size state.pattern))
    (Prod.lex Nat.lt_wfRel (Prod.lex Nat.lt_wfRel Nat.lt_wfRel)).wf

/-- The outcome of a step answers for the state, or stands for it. -/
def Stands (grammar : Grammar P α) (state : State P α) : Bool ⊕ State P α → Prop
  | .inl answer => answer = true ↔ Answer grammar state
  | .inr state' => Inv grammar state' ∧ (Answer grammar state' ↔ Answer grammar state) ∧
      Less grammar state' state

theorem behind_refl (pattern : P) (text : List α) :
    Behind grammar ⟨pattern, text, some (pattern, text)⟩ pattern text :=
  ⟨Nat.le_refl _, [], rfl, fun other found => ⟨[], other, rfl, rfl, found⟩⟩

theorem inv_restart (pattern : P) (text : List α) :
    Inv grammar ⟨pattern, text, some (pattern, text)⟩ := by
  rintro pattern' text' same
  obtain ⟨rfl, rfl⟩ := Prod.mk.inj (Option.some.inj same)
  exact behind_refl pattern text

theorem answer_restart_iff (pattern : P) (text : List α) :
    Answer grammar ⟨pattern, text, some (pattern, text)⟩ ↔
      Matches grammar pattern text ∨ Later grammar pattern text := by
  constructor
  · rintro (found | ⟨pattern', text', same, later⟩)
    · exact .inl found
    · obtain ⟨rfl, rfl⟩ := Prod.mk.inj (Option.some.inj same)
      exact .inr later
  · rintro (found | later)
    · exact .inl found
    · exact .inr ⟨pattern, text, rfl, later⟩

theorem answer_iff_of_not {state : State P α}
    (fails : ¬Matches grammar state.pattern state.text) : Answer grammar state ↔
      ∃ pattern text, state.retry = some (pattern, text) ∧ Later grammar pattern text :=
  or_iff_right fails

/-- A step back, once the text does not match here. -/
theorem stands_backtrack {state : State P α} (inv : Inv grammar state)
    (fails : ¬Matches grammar state.pattern state.text) :
    Stands grammar state (backtrack state.retry) := by
  rcases state with ⟨p, s, retry⟩
  match retry with
  | none =>
      rw [backtrack, Stands, answer_iff_of_not fails]
      refine iff_of_false nofun ?_
      rintro ⟨_, _, same, -⟩
      nomatch same
  | some (pattern, []) =>
      rw [backtrack, Stands, answer_iff_of_not fails]
      refine iff_of_false nofun ?_
      rintro ⟨_, _, same, later⟩
      obtain ⟨rfl, rfl⟩ := Prod.mk.inj (Option.some.inj same)
      exact not_later_nil later
  | some (pattern, a :: text) =>
      refine ⟨inv_restart pattern text, ?_, ?_⟩
      · rw [answer_restart_iff, answer_iff_of_not fails, ← later_cons_iff]
        constructor
        · exact fun later => ⟨pattern, a :: text, rfl, later⟩
        · rintro ⟨_, _, same, later⟩
          obtain ⟨rfl, rfl⟩ := Prod.mk.inj (Option.some.inj same)
          exact later
      · exact .right _ (.left _ _ (Nat.lt_succ_self _))

/-- Without text the answer is decided by the pattern. -/
theorem answer_iff_of_nil {state : State P α} (inv : Inv grammar state) (empty : state.text = []) :
    Answer grammar state ↔ Matches grammar state.pattern [] := by
  rw [Answer, empty]
  apply or_iff_left
  rintro ⟨pattern, text, retry, later⟩
  exact not_later_of_behind empty (inv pattern text retry) later

theorem stands_stop {state : State P α} (inv : Inv grammar state)
    (shape : grammar.shape state.pattern = .stop) :
    Stands grammar state (step grammar state) := by
  cases text : state.text with
  | nil =>
      simp only [step, shape, text]
      exact iff_of_true rfl ((answer_iff_of_nil inv text).mpr (.stop shape))
  | cons a rest =>
      simp only [step, shape, text]
      refine stands_backtrack inv ?_
      rw [matches_stop_iff shape, text]
      exact List.cons_ne_nil _ _

theorem stands_star {state : State P α} (inv : Inv grammar state) {after : P}
    (shape : grammar.shape state.pattern = .star after) :
    Stands grammar state (step grammar state) := by
  cases next : grammar.shape after with
  | stop =>
      simp only [step, shape, next]
      refine iff_of_true rfl (.inl ?_)
      have found := Matches.star shape state.text (.stop next)
      rwa [List.append_nil] at found
  | star after' => exact absurd next (grammar.star_once shape)
  | one test =>
      cases text : state.text with
      | nil =>
          simp only [step, shape, next, text]
          rw [Stands, answer_iff_of_nil inv text, matches_star_iff shape, matches_one_iff next]
          refine iff_of_false nofun ?_
          rintro (⟨a, rest, q, same, -⟩ | later)
          · nomatch same
          · exact not_later_nil later
      | cons a rest =>
          simp only [step, shape, next, text]
          refine ⟨inv_restart after (a :: rest), ?_, ?_⟩
          · rw [answer_restart_iff, ← matches_star_iff shape, ← text]
            refine ⟨.inl, ?_⟩
            rintro (found | ⟨pattern, text', retry, later⟩)
            · exact found
            · exact matches_of_later shape (inv pattern text' retry) later
          · have smaller := grammar.star_size shape
            apply Prod.Lex.left
            rw [State.place, State.place]
            cases retry : state.retry with
            | none => exact Nat.lt_succ_of_lt smaller
            | some parts => exact Nat.lt_of_lt_of_le smaller (inv parts.1 parts.2 retry).size

theorem stands_one {state : State P α} (inv : Inv grammar state) {next : α → Option P}
    (shape : grammar.shape state.pattern = .one next) :
    Stands grammar state (step grammar state) := by
  cases text : state.text with
  | nil =>
      simp only [step, shape, text]
      rw [Stands, answer_iff_of_nil inv text, matches_one_iff shape]
      refine iff_of_false nofun ?_
      rintro ⟨a, rest, q, same, -⟩
      nomatch same
  | cons a rest =>
      cases found : next a with
      | none =>
          simp only [step, shape, text, found]
          refine stands_backtrack inv ?_
          rw [matches_one_iff shape, text]
          rintro ⟨b, rest', q, same, found', -⟩
          rw [(List.cons.inj same).1, found'] at found
          nomatch found
      | some q =>
          simp only [step, shape, text, found]
          refine ⟨?_, ?_, ?_⟩
          · intro pattern text' retry
            rcases inv pattern text' retry with ⟨size, taken, whole, others⟩
            refine ⟨Nat.le_trans (Nat.le_of_lt (grammar.one_size shape found)) size, taken ++ [a],
              ?_, ?_⟩
            · rw [whole, text, List.append_assoc, List.singleton_append]
            · intro other matches'
              rcases others other matches' with ⟨taken', rest', rfl, same, inner⟩
              rcases (matches_one_iff shape).mp inner with ⟨b, rest'', q', rfl, found', inner⟩
              rw [← grammar.one_same shape found found'] at inner
              refine ⟨taken' ++ [b], rest'', ?_, ?_, inner⟩
              · rw [List.append_assoc, List.singleton_append]
              · rw [List.length_append, List.length_append, same]
                rfl
          · have here : Matches grammar state.pattern state.text ↔ Matches grammar q rest := by
              rw [matches_one_iff shape, text]
              constructor
              · rintro ⟨b, rest', q', same, found', inner⟩
                obtain ⟨rfl, rfl⟩ := List.cons.inj same
                rw [found, Option.some.injEq] at found'
                rwa [found']
              · exact fun inner => ⟨a, rest, q, rfl, found, inner⟩
            rw [Answer, Answer, here]
          · have smaller := grammar.one_size shape found
            rw [Less, State.place, State.place]
            cases retry : state.retry with
            | none => exact .left _ _ (Nat.succ_lt_succ smaller)
            | some parts => exact .right _ (.right _ smaller)

/-- Each step answers for the state or goes on to one that stands for it. -/
theorem stands_step {state : State P α} (inv : Inv grammar state) :
    Stands grammar state (step grammar state) := by
  cases shape : grammar.shape state.pattern with
  | stop => exact stands_stop inv shape
  | star after => exact stands_star inv shape
  | one next => exact stands_one inv shape

/-- The steps end, and the answer is whether the text matches. -/
theorem run_returns (state : State P α) (inv : Inv grammar state) :
    ∃ answer, Returns (fun fuel => run (step grammar) fuel state) answer ∧
      (answer = true ↔ Answer grammar state) := by
  induction state using (wellFounded_less grammar).induction with
  | _ state ih =>
      have stands := stands_step inv
      cases outcome : step grammar state with
      | inl answer =>
          rw [outcome] at stands
          refine ⟨answer, .of_const fun fuel => ?_, stands⟩
          rw [run, outcome]
      | inr state' =>
          rw [outcome] at stands
          rcases stands with ⟨inv', same, less⟩
          rcases ih state' less inv' with ⟨answer, returns, correct⟩
          refine ⟨answer, .of_succ ?_, correct.trans same⟩
          simp only [run, outcome]
          exact returns

end Machine

end Rigor.Library.Wildcards
