import Mathlib.Data.List.TakeWhile

/-!
# Maximal munch

A scanner that takes the items of a class as long as it can cuts a list at the one place where the
class ends.
-/

namespace Rigor.Library.MaximalMunch

universe u

variable {α : Type u} {p : α → Bool} {front back : List α}

/-- The list goes on with no item of the class. -/
def Stops (p : α → Bool) (back : List α) : Prop :=
  ∀ a, back.head? = some a → p a = false

@[simp]
theorem stops_nil : Stops p [] := by
  intro a head
  nomatch head

@[simp]
theorem stops_cons {a : α} : Stops p (a :: back) ↔ p a = false := by
  constructor
  · intro stops
    exact stops a rfl
  · rintro outside b ⟨⟩
    exact outside

theorem takeWhile_eq (inside : ∀ a ∈ front, p a = true) (stops : Stops p back) :
    (front ++ back).takeWhile p = front := by
  rw [List.takeWhile_append_of_pos inside]
  cases back with
  | nil => simp
  | cons a back =>
      rw [stops_cons] at stops
      rw [List.takeWhile_cons_of_neg (by simp [stops]), List.append_nil]

theorem stops_dropWhile (text : List α) : Stops p (text.dropWhile p) := by
  induction text with
  | nil => exact stops_nil
  | cons a text ih =>
      by_cases inside : p a = true
      · rw [List.dropWhile_cons_of_pos inside]
        exact ih
      · rw [List.dropWhile_cons_of_neg inside, stops_cons]
        exact Bool.not_eq_true _ ▸ inside

/-- The cut is unique. -/
theorem cut_unique {front' back' : List α} (same : front ++ back = front' ++ back')
    (inside : ∀ a ∈ front, p a = true) (inside' : ∀ a ∈ front', p a = true)
    (stops : Stops p back) (stops' : Stops p back') : front = front' ∧ back = back' := by
  have equal : front = front' := by
    rw [← takeWhile_eq inside stops, same, takeWhile_eq inside' stops']
  subst equal
  exact ⟨rfl, List.append_cancel_left same⟩

/-- What stops a class does not matter to the run in front of it. -/
theorem takeWhile_append_of_stops (stops : Stops p back) (front : List α) :
    (front ++ back).takeWhile p = front.takeWhile p := by
  induction front with
  | nil => exact @takeWhile_eq _ p [] back nofun stops
  | cons a front ih =>
      rw [List.cons_append, List.takeWhile_cons, List.takeWhile_cons, ih]

theorem dropWhile_append_of_stops (stops : Stops p back) (front : List α) :
    (front ++ back).dropWhile p = front.dropWhile p ++ back := by
  have whole := List.takeWhile_append_dropWhile (p := p) (l := front ++ back)
  rw [takeWhile_append_of_stops stops] at whole
  have parts := List.takeWhile_append_dropWhile (p := p) (l := front)
  have joined : front.takeWhile p ++ (front ++ back).dropWhile p =
      front.takeWhile p ++ (front.dropWhile p ++ back) := by
    rw [whole, ← List.append_assoc, parts]
  exact List.append_cancel_left joined

end Rigor.Library.MaximalMunch
