import Mathlib.Data.List.Infix

/-!
# Occurrences of a list in a list

Where a list occurs in another one, the first occurrence from a position on and the last one up
to a position.
-/

namespace Rigor.Library.Occurrences

universe u

variable {α : Type u} {sub list : List α} {p q : Nat}

/-- The list stands at this position; the empty list stands at the end as well. -/
def OccursAt (sub list : List α) (p : Nat) : Prop :=
  p ≤ list.length ∧ sub <+: list.drop p

theorem OccursAt.fits (occurs : OccursAt sub list p) : p + sub.length ≤ list.length := by
  have short := occurs.2.length_le
  have inside := occurs.1
  rw [List.length_drop] at short
  omega

theorem occursAt_nil_iff : OccursAt sub ([] : List α) p ↔ p = 0 ∧ sub = [] := by
  simp [OccursAt]

theorem occursAt_zero_iff : OccursAt sub list 0 ↔ sub <+: list := by
  simp [OccursAt]

theorem occursAt_succ_iff (first : α) : OccursAt sub (first :: list) (p + 1) ↔
    OccursAt sub list p := by
  simp [OccursAt]

/-- Occurrences in the rest of a list. -/
theorem occursAt_drop_iff (inside : p ≤ list.length) :
    OccursAt sub (list.drop p) q ↔ OccursAt sub list (p + q) := by
  unfold OccursAt
  rw [List.drop_drop, List.length_drop]
  apply and_congr_left'
  omega

/-- Occurrences in the front of a list. -/
theorem occursAt_take_iff {stop : Nat} (inside : stop ≤ list.length) :
    OccursAt sub (list.take stop) q ↔ OccursAt sub list q ∧ q + sub.length ≤ stop := by
  constructor
  · intro occurs
    have fits := occurs.fits
    rw [List.length_take, Nat.min_eq_left inside] at fits
    refine ⟨⟨by omega, ?_⟩, fits⟩
    have front := occurs.2
    rw [List.drop_take] at front
    exact front.trans (List.take_prefix _ _)
  · rintro ⟨occurs, fits⟩
    constructor
    · rw [List.length_take, Nat.min_eq_left inside]
      omega
    · rw [List.drop_take]
      apply List.prefix_take_iff.mpr
      exact ⟨occurs.2, by omega⟩

section Search

variable [DecidableEq α]

instance : Decidable (OccursAt sub list p) :=
  inferInstanceAs (Decidable (_ ∧ _))

/-- The first occurrence at or after a position. -/
def firstFrom (sub list : List α) (p : Nat) : Option Nat :=
  (List.range (list.length + 1)).find? fun q => p ≤ q ∧ OccursAt sub list q

/-- The last occurrence at or before a position. -/
def lastUpTo (sub list : List α) : Nat → Option Nat
  | 0 => if OccursAt sub list 0 then some 0 else none
  | p + 1 => if OccursAt sub list (p + 1) then some (p + 1) else lastUpTo sub list p

theorem firstFrom_eq_some_iff : firstFrom sub list p = some q ↔
    p ≤ q ∧ OccursAt sub list q ∧ ∀ r, p ≤ r → OccursAt sub list r → q ≤ r := by
  unfold firstFrom
  rw [List.find?_range_eq_some]
  simp only [decide_eq_true_eq, List.mem_range, Bool.not_eq_true', decide_eq_false_iff_not]
  constructor
  · rintro ⟨found, _, first⟩
    refine ⟨found.1, found.2, fun r later occurs => ?_⟩
    by_contra before
    exact first r (Nat.not_le.mp before) ⟨later, occurs⟩
  · rintro ⟨later, occurs, first⟩
    refine ⟨⟨later, occurs⟩, Nat.lt_succ_of_le occurs.1, fun r before other => ?_⟩
    exact Nat.not_le.mpr before (first r other.1 other.2)

theorem lastUpTo_eq_some_iff : lastUpTo sub list p = some q ↔
    q ≤ p ∧ OccursAt sub list q ∧ ∀ r ≤ p, OccursAt sub list r → r ≤ q := by
  induction p with
  | zero =>
      rw [lastUpTo]
      split
      · rename_i occurs
        constructor
        · rintro ⟨⟩
          exact ⟨Nat.le_refl 0, occurs, fun r small _ => small⟩
        · rintro ⟨small, _, _⟩
          rw [Nat.le_zero.mp small]
      · rename_i absent
        apply iff_of_false nofun
        rintro ⟨small, occurs, _⟩
        exact absent (Nat.le_zero.mp small ▸ occurs)
  | succ p ih =>
      rw [lastUpTo]
      split
      · rename_i occurs
        constructor
        · rintro ⟨⟩
          exact ⟨Nat.le_refl _, occurs, fun r small _ => small⟩
        · rintro ⟨small, _, last⟩
          rw [Nat.le_antisymm small (last (p + 1) (Nat.le_refl _) occurs)]
      · rename_i absent
        rw [ih]
        constructor
        · rintro ⟨small, occurs, last⟩
          refine ⟨Nat.le_succ_of_le small, occurs, fun r bound other => ?_⟩
          rcases Nat.le_succ_iff.mp bound with before | rfl
          · exact last r before other
          · exact absurd other absent
        · rintro ⟨bound, occurs, last⟩
          refine ⟨?_, occurs, fun r small => last r (Nat.le_succ_of_le small)⟩
          rcases Nat.le_succ_iff.mp bound with before | rfl
          · exact before
          · exact absurd occurs absent

end Search

end Rigor.Library.Occurrences
