import Mathlib.Computability.Language
import Rigor.Library.Separated

/-!
# Languages of classes and separated pieces

What the regular expressions of scanners denote: runs of a class, and pieces with a separator between
them.
-/

namespace Rigor.Library.Languages

open Computability Rigor.Library.Separated

universe u

variable {α : Type u}

/-- One item of a class. -/
def ofClass (p : α → Bool) : Language α :=
  {text | ∃ a, p a = true ∧ text = [a]}

/-- One or more. -/
def plus (l : Language α) : Language α :=
  l * l∗

theorem mem_kstar_ofClass {p : α → Bool} {text : List α} :
    text ∈ (ofClass p)∗ ↔ ∀ a ∈ text, p a = true := by
  rw [Language.mem_kstar]
  constructor
  · rintro ⟨pieces, rfl, inClass⟩ a mem
    rcases List.mem_flatten.mp mem with ⟨piece, inPieces, inPiece⟩
    rcases inClass piece inPieces with ⟨b, holds, rfl⟩
    rwa [List.mem_singleton.mp inPiece]
  · intro holds
    refine ⟨text.map ([·]), ?_, ?_⟩
    · exact (List.flatMap_singleton' text).symm.trans (List.flatMap_def)
    · intro piece mem
      rcases List.mem_map.mp mem with ⟨a, inText, rfl⟩
      exact ⟨a, holds a inText, rfl⟩

theorem mem_plus_ofClass {p : α → Bool} {text : List α} :
    text ∈ plus (ofClass p) ↔ text ≠ [] ∧ ∀ a ∈ text, p a = true := by
  rw [plus, Language.mem_mul]
  constructor
  · rintro ⟨_, ⟨a, holds, rfl⟩, rest, more, rfl⟩
    refine ⟨List.cons_ne_nil _ _, ?_⟩
    intro b mem
    rcases List.mem_cons.mp mem with rfl | later
    · exact holds
    · exact mem_kstar_ofClass.mp more b later
  · rintro ⟨nonempty, holds⟩
    rcases List.exists_cons_of_ne_nil nonempty with ⟨a, rest, rfl⟩
    rw [List.forall_mem_cons] at holds
    exact ⟨[a], ⟨a, holds.1, rfl⟩, rest, mem_kstar_ofClass.mpr holds.2, rfl⟩

theorem mem_singleton_mul_iff {a : α} {l : Language α} {text : List α} :
    text ∈ ({[a]} * l : Language α) ↔ ∃ rest ∈ l, text = a :: rest := by
  rw [Language.mem_mul]
  constructor
  · rintro ⟨_, rfl, rest, inRest, rfl⟩
    exact ⟨rest, inRest, rfl⟩
  · rintro ⟨rest, inRest, rfl⟩
    exact ⟨[a], rfl, rest, inRest, rfl⟩

theorem mem_kstar_separated_iff {sep : α} {rest : Language α} {text : List α} :
    text ∈ ({[sep]} * rest)∗ ↔
      ∃ tail : List (List α), text = tail.flatMap (sep :: ·) ∧ ∀ piece ∈ tail, piece ∈ rest := by
  have cons_mem : ∀ {piece : List α}, piece ∈ rest → sep :: piece ∈ ({[sep]} * rest : Language α) :=
    fun inRest => Language.append_mem_mul (Set.mem_singleton [sep]) inRest
  rw [Language.mem_kstar]
  constructor
  · rintro ⟨pieces, rfl, holds⟩
    induction pieces with
    | nil => exact ⟨[], rfl, nofun⟩
    | cons piece pieces ih =>
        rw [List.forall_mem_cons] at holds
        rcases Language.mem_mul.mp holds.1 with ⟨_, rfl, first, inRest, rfl⟩
        rcases ih holds.2 with ⟨tail, same, inTail⟩
        refine ⟨first :: tail, ?_, List.forall_mem_cons.mpr ⟨inRest, inTail⟩⟩
        rw [List.flatten_cons, same]
        rfl
  · rintro ⟨tail, rfl, holds⟩
    refine ⟨tail.map (sep :: ·), List.flatMap_def, ?_⟩
    intro piece mem
    rcases List.mem_map.mp mem with ⟨inner, inTail, rfl⟩
    exact cons_mem (holds inner inTail)

section Separated

variable [BEq α] [LawfulBEq α] {sep : α} {first rest : Language α}

/-- Pieces each behind a separator, after a first one. -/
theorem mem_separated_iff (firstFree : ∀ piece ∈ first, sep ∉ piece)
    (restFree : ∀ piece ∈ rest, sep ∉ piece) {text : List α} :
    text ∈ first * ({[sep]} * rest)∗ ↔
      ∃ head tail, text.splitOn sep = head :: tail ∧ head ∈ first ∧ ∀ piece ∈ tail, piece ∈ rest := by
  rw [Language.mem_mul]
  constructor
  · rintro ⟨head, inFirst, more, inRest, rfl⟩
    rcases mem_kstar_separated_iff.mp inRest with ⟨tail, rfl, holds⟩
    refine ⟨head, tail, ?_, inFirst, holds⟩
    rw [← intercalate_cons]
    apply List.splitOn_intercalate
    · exact List.forall_mem_cons.mpr
        ⟨firstFree head inFirst, fun piece mem => restFree piece (holds piece mem)⟩
    · exact List.cons_ne_nil _ _
  · rintro ⟨head, tail, pieces, inFirst, holds⟩
    refine ⟨head, inFirst, _, mem_kstar_separated_iff.mpr ⟨tail, rfl, holds⟩, ?_⟩
    rw [← intercalate_cons, ← pieces, List.intercalate_splitOn]

end Separated

end Rigor.Library.Languages
