/-!
# Functions with fuel

A recursion without an evident bound is modelled by a function of a fuel that
answers `none` when the fuel runs out.  It returns a value when all large enough
fuels give that value.
-/

namespace Rigor.Library.Fuel

universe u v

variable {α : Type u} {β : Type v}

/-- With enough fuel the function answers `value`. -/
def Returns (run : Nat → Option α) (value : α) : Prop :=
  ∃ enough, ∀ fuel, enough < fuel → run fuel = some value

namespace Returns

variable {run other : Nat → Option α} {value : α}

theorem of_const (always : ∀ fuel, run (fuel + 1) = some value) : Returns run value := by
  refine ⟨0, fun fuel positive => ?_⟩
  obtain ⟨fuel, rfl⟩ := Nat.exists_eq_succ_of_ne_zero (Nat.ne_of_gt positive)
  exact always fuel

/-- A function returns at most one value. -/
theorem unique {first second : α} (returnsFirst : Returns run first)
    (returnsSecond : Returns run second) : first = second := by
  obtain ⟨m, enoughFirst⟩ := returnsFirst
  obtain ⟨n, enoughSecond⟩ := returnsSecond
  have firstAnswer := enoughFirst (m + n + 1) (by omega)
  rw [enoughSecond (m + n + 1) (by omega)] at firstAnswer
  exact (Option.some.inj firstAnswer).symm

theorem bind {next : Nat → α → Option β} {result : β} (returns : Returns run value)
    (returnsNext : Returns (fun fuel => next fuel value) result) :
    Returns (fun fuel => (run fuel).bind (next fuel)) result := by
  obtain ⟨m, enough⟩ := returns
  obtain ⟨n, enoughNext⟩ := returnsNext
  refine ⟨m + n, fun fuel above => ?_⟩
  have ran : run fuel = some value := enough fuel (by omega)
  simp only [ran, Option.bind_some]
  exact enoughNext fuel (by omega)

theorem map {result : β} (f : α → β) (returns : Returns run value) (same : f value = result) :
    Returns (fun fuel => (run fuel).map f) result := by
  obtain ⟨m, enough⟩ := returns
  refine ⟨m, fun fuel above => ?_⟩
  simp only [enough fuel above, Option.map_some, same]

/-- A call that spends one unit of fuel. -/
theorem of_succ (returns : Returns (fun fuel => run (fuel + 1)) value) : Returns run value := by
  obtain ⟨m, enough⟩ := returns
  refine ⟨m + 1, fun fuel above => ?_⟩
  obtain ⟨fuel, rfl⟩ := Nat.exists_eq_succ_of_ne_zero (Nat.ne_zero_of_lt above)
  exact enough fuel (Nat.lt_of_succ_lt_succ above)

end Returns

end Rigor.Library.Fuel
