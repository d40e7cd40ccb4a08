import Mathlib.Data.List.Basic

/-!
# Separated lists

A list cut at a separator, against the lists that begin with it.
-/

namespace Rigor.Library.Separated

universe u

variable {α : Type u} {sep : α}

/-- Pieces in front of others stand in front of a separator. -/
theorem intercalate_append {front back : List (List α)} (nonempty : front ≠ [])
    (nonempty' : back ≠ []) :
    [sep].intercalate (front ++ back) =
      [sep].intercalate front ++ sep :: [sep].intercalate back := by
  induction front with
  | nil => exact absurd rfl nonempty
  | cons piece front ih =>
      cases front with
      | nil =>
          rcases List.exists_cons_of_ne_nil nonempty' with ⟨first, rest, rfl⟩
          simp [List.intercalate]
      | cons piece' front =>
          have inner := ih (List.cons_ne_nil _ _)
          simp only [List.intercalate, List.cons_append, List.intersperse_cons_cons,
            List.flatten_cons] at inner ⊢
          rw [inner]
          simp

theorem intercalate_cons_of_ne_nil (sep : α) (head : List α) {tail : List (List α)}
    (nonempty : tail ≠ []) :
    [sep].intercalate (head :: tail) = head ++ sep :: [sep].intercalate tail := by
  have cut := @intercalate_append _ sep [head] tail (List.cons_ne_nil _ _) nonempty
  rwa [List.intercalate_singleton] at cut

theorem intercalate_cons (sep : α) (head : List α) (tail : List (List α)) :
    [sep].intercalate (head :: tail) = head ++ tail.flatMap (sep :: ·) := by
  induction tail generalizing head with
  | nil => simp
  | cons next tail ih =>
      rw [intercalate_cons_of_ne_nil sep head (List.cons_ne_nil next tail), ih]
      rfl

/-- An item of joined pieces is a separator or in a piece. -/
theorem mem_or_of_mem_intercalate {pieces : List (List α)} {a : α}
    (mem : a ∈ [sep].intercalate pieces) : a = sep ∨ ∃ piece ∈ pieces, a ∈ piece := by
  cases pieces with
  | nil => exact absurd mem List.not_mem_nil
  | cons head tail =>
      rw [intercalate_cons, List.mem_append, List.mem_flatMap] at mem
      rcases mem with first | ⟨piece, inTail, inPiece⟩
      · exact .inr ⟨head, List.mem_cons_self, first⟩
      · rcases List.mem_cons.mp inPiece with same | later
        · exact .inl same
        · exact .inr ⟨piece, List.mem_cons_of_mem _ inTail, later⟩

section Split

variable [BEq α] [LawfulBEq α]

/-- The pieces between separators have none. -/
theorem not_mem_of_mem_splitOn {piece whole : List α} (mem : piece ∈ whole.splitOn sep) :
    sep ∉ piece := by
  induction whole generalizing piece with
  | nil =>
      rw [List.splitOn_nil, List.mem_singleton] at mem
      rw [mem]
      exact List.not_mem_nil
  | cons a whole ih =>
      rw [List.splitOn_cons_eq_if_modifyHead] at mem
      by_cases same : a = sep
      · rw [if_pos (beq_iff_eq.mpr same)] at mem
        rcases List.mem_cons.mp mem with rfl | later
        · exact List.not_mem_nil
        · exact ih later
      · rw [if_neg (fun equal => same (beq_iff_eq.mp equal))] at mem
        rcases List.exists_cons_of_ne_nil (List.splitOn_ne_nil sep whole) with ⟨first, rest, pieces⟩
        rw [pieces, List.modifyHead_cons] at mem
        rw [pieces] at ih
        rcases List.mem_cons.mp mem with rfl | later
        · rw [List.mem_cons, not_or]
          exact ⟨Ne.symm same, ih List.mem_cons_self⟩
        · exact ih (List.mem_cons_of_mem _ later)

/-- Whatever is no separator is in a piece. -/
theorem exists_mem_splitOn {whole : List α} {a : α} (mem : a ∈ whole) (other : a ≠ sep) :
    ∃ piece ∈ whole.splitOn sep, a ∈ piece := by
  have joined : [sep].intercalate (whole.splitOn sep) = whole := List.intercalate_splitOn sep
  rw [← joined] at mem
  exact (mem_or_of_mem_intercalate mem).resolve_left other

theorem splitOn_eq_singleton_iff {whole : List α} : whole.splitOn sep = [whole] ↔ sep ∉ whole := by
  constructor
  · intro single
    exact not_mem_of_mem_splitOn (single ▸ List.mem_singleton_self whole)
  · exact List.splitOn_eq_singleton

theorem splitOn_injective {a b : List α} (same : a.splitOn sep = b.splitOn sep) : a = b := by
  calc a = [sep].intercalate (a.splitOn sep) := (List.intercalate_splitOn sep).symm
    _ = [sep].intercalate (b.splitOn sep) := by rw [same]
    _ = b := List.intercalate_splitOn sep

/-- The pieces of one list begin those of another where a separator follows the list. -/
theorem splitOn_prefix_iff {front whole : List α} : front.splitOn sep <+: whole.splitOn sep ↔
    front = whole ∨ ∃ rest, whole = front ++ sep :: rest := by
  constructor
  · rintro ⟨back, pieces⟩
    by_cases empty : back = []
    · rw [empty, List.append_nil] at pieces
      exact .inl (splitOn_injective pieces)
    · have rebuilt := congrArg [sep].intercalate pieces
      rw [intercalate_append (List.splitOn_ne_nil _ _) empty, List.intercalate_splitOn,
        List.intercalate_splitOn] at rebuilt
      exact .inr ⟨_, rebuilt.symm⟩
  · rintro (rfl | ⟨rest, rfl⟩)
    · exact List.prefix_rfl
    · rw [List.splitOn_append_cons_self]
      exact List.prefix_append _ _

end Split

end Rigor.Library.Separated
