import Rigor.Library.Languages
import Rigor.Library.Numerals

/-!
# Groups of digits

The regular language of digit groups with single separators between them is that of the runs of digits.
-/

namespace Rigor.Library.DigitGroups

open Computability Rigor.Library.Languages Rigor.Library.Numerals

universe u

variable {α : Type u}

/-- One or more of a class, in groups with a separator between them. -/
def groups (p : α → Bool) (sep : α) : Language α :=
  plus (ofClass p) * ({[sep]} * plus (ofClass p))∗

theorem singleton_mem_plus {p : α → Bool} {a : α} (holds : p a = true) : [a] ∈ plus (ofClass p) := by
  rw [mem_plus_ofClass, List.forall_mem_singleton]
  exact ⟨List.cons_ne_nil a [], holds⟩

section Runs

variable {alphabet : Alphabet α} {base : Nat} {p : α → Bool}

/-- The class is that of the digits of the base. -/
def Spells (p : α → Bool) (alphabet : Alphabet α) (base : Nat) : Prop :=
  ∀ a, p a = true ↔ ∃ d, alphabet.IsDigit base a d

theorem groups_of_digitRun (spells : Spells p alphabet base) {run : List α} {ds : List Nat}
    (digits : DigitRun alphabet base run ds) : run ∈ groups p alphabet.separator := by
  induction digits with
  | last digit =>
      have whole := Language.append_mem_mul (singleton_mem_plus ((spells _).mpr ⟨_, digit⟩))
        (Language.nil_mem_kstar ({[alphabet.separator]} * plus (ofClass p)))
      rwa [List.append_nil] at whole
  | @digit a _ run _ digit _ ih =>
      rcases Language.mem_mul.mp ih with ⟨head, first, rest, more, rfl⟩
      have longer : a :: head ∈ plus (ofClass p) := by
        rw [mem_plus_ofClass] at first ⊢
        refine ⟨List.cons_ne_nil _ _, ?_⟩
        rw [List.forall_mem_cons]
        exact ⟨(spells a).mpr ⟨_, digit⟩, first.2⟩
      exact Language.append_mem_mul longer more
  | @separated a _ run _ digit _ ih =>
      rcases Language.mem_mul.mp ih with ⟨head, first, rest, more, rfl⟩
      rcases mem_kstar_separated_iff.mp more with ⟨tail, rfl, later⟩
      have behind : alphabet.separator :: (head ++ tail.flatMap (alphabet.separator :: ·)) ∈
          ({[alphabet.separator]} * plus (ofClass p) : Language α)∗ :=
        mem_kstar_separated_iff.mpr ⟨head :: tail, rfl, List.forall_mem_cons.mpr ⟨first, later⟩⟩
      exact Language.append_mem_mul (singleton_mem_plus ((spells a).mpr ⟨_, digit⟩)) behind

theorem digitRun_of_plus (spells : Spells p alphabet base) {run : List α}
    (inPlus : run ∈ plus (ofClass p)) : ∃ ds, DigitRun alphabet base run ds := by
  rw [mem_plus_ofClass] at inPlus
  rcases inPlus with ⟨nonempty, digits⟩
  induction run with
  | nil => exact absurd rfl nonempty
  | cons a run ih =>
      rw [List.forall_mem_cons] at digits
      rcases (spells a).mp digits.1 with ⟨d, digit⟩
      by_cases last : run = []
      · rw [last]
        exact ⟨[d], .last digit⟩
      · rcases ih last digits.2 with ⟨ds, rest⟩
        exact ⟨d :: ds, .digit digit rest⟩

theorem digitRun_of_groups (spells : Spells p alphabet base) {run : List α}
    (inGroups : run ∈ groups p alphabet.separator) : ∃ ds, DigitRun alphabet base run ds := by
  rcases Language.mem_mul.mp inGroups with ⟨head, first, rest, more, rfl⟩
  rcases mem_kstar_separated_iff.mp more with ⟨tail, rfl, later⟩
  clear inGroups more
  induction tail generalizing head with
  | nil =>
      rw [List.flatMap_nil, List.append_nil]
      exact digitRun_of_plus spells first
  | cons piece tail ih =>
      rw [List.forall_mem_cons] at later
      rcases ih piece later.1 later.2 with ⟨ds', back⟩
      rcases digitRun_of_plus spells first with ⟨ds, front⟩
      exact ⟨ds ++ ds', front.append_separated back⟩

theorem mem_groups_iff (spells : Spells p alphabet base) {run : List α} :
    run ∈ groups p alphabet.separator ↔ ∃ ds, DigitRun alphabet base run ds :=
  ⟨digitRun_of_groups spells, fun ⟨_, digits⟩ => groups_of_digitRun spells digits⟩

end Runs

end Rigor.Library.DigitGroups
