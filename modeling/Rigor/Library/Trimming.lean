import Mathlib.Data.List.DropRight

/-!
# Trimming

A list without the items of a class at its ends.
-/

namespace Rigor.Library.Trimming

universe u

variable {α : Type u} {p : α → Bool}

def strip (p : α → Bool) (text : List α) : List α :=
  (text.dropWhile p).rdropWhile p

/-- What is stripped stood around the rest. -/
theorem exists_strip (p : α → Bool) (text : List α) :
    ∃ front back, text = front ++ strip p text ++ back ∧ (∀ a ∈ front, p a = true) ∧
      ∀ a ∈ back, p a = true := by
  refine ⟨text.takeWhile p, (text.dropWhile p).rtakeWhile p, ?_, ?_, ?_⟩
  · rw [List.append_assoc, strip, List.rdropWhile_append_rtakeWhile, List.takeWhile_append_dropWhile]
  · exact fun a mem => List.mem_takeWhile_imp mem
  · exact fun a mem => List.mem_rtakeWhile_imp mem

/-- What is left neither starts nor ends in the class. -/
theorem head?_strip (p : α → Bool) (text : List α) : ∀ a ∈ (strip p text).head?, p a = false := by
  intro a first
  rcases List.rdropWhile_prefix p (text.dropWhile p) with ⟨back, whole⟩
  have starts : (text.dropWhile p).head? = some a := by
    rw [← whole]
    exact List.mem_head?_append_of_mem_head? first
  have outside := List.head?_dropWhile_not p text
  rw [starts] at outside
  exact outside

/-- Only what stands around a list that neither starts nor ends in the class is stripped. -/
theorem strip_append {front core back : List α} (before : ∀ a ∈ front, p a = true)
    (starts : ∀ a ∈ core.head?, p a = false) (ends : ∀ a ∈ core.getLast?, p a = false)
    (after : ∀ a ∈ back, p a = true) : strip p (front ++ core ++ back) = core := by
  have kept : ∀ {text : List α}, (∀ a ∈ text.head?, p a = false) → text.dropWhile p = text := by
    intro text outside
    cases text with
    | nil => rfl
    | cons a rest =>
        rw [List.dropWhile_cons_of_neg]
        rw [outside a rfl]
        decide
  rw [strip, List.append_assoc, List.dropWhile_append_of_pos before]
  cases core with
  | nil =>
      rw [List.nil_append, List.dropWhile_eq_nil_iff.mpr after]
      rfl
  | cons a rest =>
      have visible : ¬p a = true := by
        rw [starts a rfl]
        decide
      rw [List.cons_append, List.dropWhile_cons_of_neg visible, ← List.cons_append, List.rdropWhile,
        List.reverse_append,
        List.dropWhile_append_of_pos (fun b mem => after b (List.mem_reverse.mp mem)),
        kept (by rwa [List.head?_reverse]), List.reverse_reverse]

theorem strip_append_of_outside {front core back : List α} (before : ∀ a ∈ front, p a = true)
    (inside : ∀ a ∈ core, p a = false) (after : ∀ a ∈ back, p a = true) :
    strip p (front ++ core ++ back) = core :=
  strip_append before (fun a first => inside a (List.mem_of_mem_head? first))
    (fun a last => inside a (List.mem_of_mem_getLast? last)) after

end Rigor.Library.Trimming
