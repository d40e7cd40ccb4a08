import Mathlib.Data.Nat.Find
import Mathlib.Logic.Relation

/-!
# Equations between partial values

Each key has an equation, which gives its value from the values of the finitely many keys
that it uses, and only if all of these have one.  The equations have a least solution, and
no key that reaches a cycle has a value there.
-/

namespace Rigor.Library

universe u v

variable {κ : Type u} {α : Type v}

/-- The second assignment has every value of the first. -/
def Extends (f g : κ → Option α) : Prop :=
  ∀ key value, f key = some value → g key = some value

/-- Strict equations. -/
structure Equations (κ : Type u) (α : Type v) where
  uses : κ → List κ
  step : (κ → Option α) → κ → Option α
  mono : ∀ {f g : κ → Option α} {key : κ}, (∀ used ∈ uses key, ∀ value, f used = some value →
    g used = some value) → ∀ value, step f key = some value → step g key = some value
  strict : ∀ {f : κ → Option α} {key : κ} {value : α}, step f key = some value →
    ∀ used ∈ uses key, (f used).isSome = true

namespace Equations

variable (equations : Equations κ α)

def Solution (f : κ → Option α) : Prop :=
  equations.step f = f

/-- The values that derivations of some depth give. -/
def iterate : Nat → κ → Option α
  | 0 => fun _ => none
  | n + 1 => equations.step (iterate n)

open Classical in
/-- The values that derivations of any depth give. -/
noncomputable def least (key : κ) : Option α :=
  if defined : ∃ n, (equations.iterate n key).isSome = true then
    equations.iterate (Nat.find defined) key
  else none

/-- The equation of a key uses another key. -/
def Uses (key used : κ) : Prop :=
  used ∈ equations.uses key

/-- The key is on a cycle or leads to one. -/
def ReachesCycle (key : κ) : Prop :=
  ∃ cyclic, Relation.ReflTransGen equations.Uses key cyclic ∧
    Relation.TransGen equations.Uses cyclic cyclic

variable {equations}

theorem step_extends {f g : κ → Option α} (within : Extends f g) :
    Extends (equations.step f) (equations.step g) :=
  fun _ value => equations.mono (fun used _ => within used) value

theorem iterate_extends_succ (n : Nat) :
    Extends (equations.iterate n) (equations.iterate (n + 1)) := by
  induction n with
  | zero => exact fun _ _ impossible => nomatch impossible
  | succ n ih => exact step_extends ih

theorem iterate_extends {m n : Nat} (le : m ≤ n) :
    Extends (equations.iterate m) (equations.iterate n) := by
  induction le with
  | refl => exact fun _ _ found => found
  | step _ ih => exact fun key value found => iterate_extends_succ _ key value (ih key value found)

theorem least_eq_some_iff {key : κ} {value : α} :
    equations.least key = some value ↔ ∃ n, equations.iterate n key = some value := by
  constructor
  · intro found
    rw [least] at found
    split at found
    · exact ⟨_, found⟩
    · simp at found
  · rintro ⟨n, found⟩
    have defined : ∃ n, (equations.iterate n key).isSome = true := ⟨n, by simp [found]⟩
    rw [least, dif_pos defined]
    obtain ⟨value', found'⟩ := Option.isSome_iff_exists.mp (Nat.find_spec defined)
    have early : Nat.find defined ≤ n := Nat.find_min' defined (by simp [found])
    rw [found', ← found, iterate_extends early key value' found']

theorem iterate_extends_least (n : Nat) : Extends (equations.iterate n) equations.least :=
  fun _ _ found => least_eq_some_iff.mpr ⟨n, found⟩

/-- Finitely many values of the least solution are derived together. -/
theorem exists_iterate (keys : List κ) : ∃ n, ∀ key ∈ keys, ∀ value,
    equations.least key = some value → equations.iterate n key = some value := by
  induction keys with
  | nil => exact ⟨0, by simp⟩
  | cons key keys ih =>
      obtain ⟨n, derived⟩ := ih
      rcases found : equations.least key with _ | value
      · refine ⟨n, fun other mem value defined => ?_⟩
        rcases List.mem_cons.mp mem with rfl | mem
        · simp [found] at defined
        · exact derived other mem value defined
      · obtain ⟨m, here⟩ := least_eq_some_iff.mp found
        refine ⟨max m n, fun other mem value' defined => ?_⟩
        rcases List.mem_cons.mp mem with rfl | mem
        · obtain rfl := Option.some.inj (found.symm.trans defined)
          exact iterate_extends (le_max_left m n) _ _ here
        · exact iterate_extends (le_max_right m n) _ _ (derived other mem value' defined)

theorem least_solution : equations.Solution equations.least := by
  funext key
  apply Option.ext
  intro value
  constructor
  · intro found
    obtain ⟨n, derived⟩ := @exists_iterate _ _ equations (equations.uses key)
    exact least_eq_some_iff.mpr ⟨n + 1, equations.mono derived value found⟩
  · intro found
    obtain ⟨n, found⟩ := least_eq_some_iff.mp found
    exact step_extends (iterate_extends_least n) key value (iterate_extends_succ n key value found)

theorem iterate_extends_solution {f : κ → Option α} (solution : equations.Solution f) (n : Nat) :
    Extends (equations.iterate n) f := by
  induction n with
  | zero => exact fun _ _ impossible => nomatch impossible
  | succ n ih =>
      rw [← solution]
      exact step_extends ih

theorem least_extends {f : κ → Option α} (solution : equations.Solution f) :
    Extends equations.least f := by
  intro key value found
  obtain ⟨n, found⟩ := least_eq_some_iff.mp found
  exact iterate_extends_solution solution n key value found

theorem ReachesCycle.exists_used {key : κ} (reaches : equations.ReachesCycle key) :
    ∃ used, equations.Uses key used ∧ equations.ReachesCycle used := by
  obtain ⟨cyclic, path, cycle⟩ := reaches
  rcases Relation.ReflTransGen.cases_head path with rfl | ⟨used, uses, rest⟩
  · obtain ⟨used, uses, back⟩ := Relation.TransGen.head'_iff.mp cycle
    exact ⟨used, uses, key, back, cycle⟩
  · exact ⟨used, uses, cyclic, rest, cycle⟩

/-- A value is derived from values of a smaller depth, so no cycle is below it. -/
theorem not_reachesCycle_of_iterate {n : Nat} {key : κ} {value : α}
    (found : equations.iterate n key = some value) : ¬ equations.ReachesCycle key := by
  induction n generalizing key value with
  | zero => simp [iterate] at found
  | succ n ih =>
      intro reaches
      obtain ⟨used, uses, reaches⟩ := reaches.exists_used
      obtain ⟨value', found'⟩ := Option.isSome_iff_exists.mp (equations.strict found used uses)
      exact ih found' reaches

theorem least_of_reachesCycle {key : κ} (reaches : equations.ReachesCycle key) :
    equations.least key = none := by
  rcases found : equations.least key with _ | value
  · rfl
  · obtain ⟨n, derived⟩ := least_eq_some_iff.mp found
    exact absurd reaches (not_reachesCycle_of_iterate derived)

end Equations

end Rigor.Library
