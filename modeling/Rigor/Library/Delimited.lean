import Mathlib.Data.List.Forall2

/-!
# Self-delimiting codes

Words that tell where they end, whatever is written after them.  A list of such words is read back from
their concatenation up to a stop.
-/

namespace Rigor.Library.Delimited

universe u v

variable {α : Type u} {σ : Type v} {alike : α → α → Prop} {code : α → List σ}

/-- A word shows its item, up to what is alike, and where it ends. -/
def Delimits (alike : α → α → Prop) (code : α → List σ) : Prop :=
  ∀ a b r r', code a ++ r = code b ++ r' → alike a b ∧ r = r'

/-- A word that ends with its only stop. -/
theorem eq_of_append_stop {stop : σ} {xs ys r r' : List σ} (free : stop ∉ xs) (free' : stop ∉ ys)
    (same : xs ++ stop :: r = ys ++ stop :: r') : xs = ys ∧ r = r' := by
  induction xs generalizing ys with
  | nil =>
      cases ys with
      | nil => exact ⟨rfl, (List.cons.inj same).2⟩
      | cons y ys => exact absurd ((List.cons.inj same).1 ▸ List.mem_cons_self) free'
  | cons x xs ih =>
      cases ys with
      | nil => exact absurd ((List.cons.inj same).1 ▸ List.mem_cons_self) free
      | cons y ys =>
          rcases List.cons.inj same with ⟨rfl, rest⟩
          rcases ih (fun mem => free (List.mem_cons_of_mem _ mem)) (fun mem => free' (List.mem_cons_of_mem _ mem))
            rest with ⟨rfl, after⟩
          exact ⟨rfl, after⟩

theorem Delimits.prepend (delimits : Delimits alike code) (front : List σ) :
    Delimits alike fun a => front ++ code a := by
  intro a b r r' same
  rw [List.append_assoc, List.append_assoc] at same
  exact delimits a b r r' (List.append_cancel_left same)

/-- Words up to a stop that begins no word. -/
theorem Delimits.flatMap (delimits : Delimits alike code) {stop : σ}
    (begins : ∀ a, ∃ x w, code a = x :: w ∧ x ≠ stop) {xs ys : List α} {r r' : List σ}
    (same : xs.flatMap code ++ stop :: r = ys.flatMap code ++ stop :: r') :
    List.Forall₂ alike xs ys ∧ r = r' := by
  induction xs generalizing ys with
  | nil =>
      cases ys with
      | nil => exact ⟨.nil, (List.cons.inj same).2⟩
      | cons y ys =>
          rcases begins y with ⟨x, w, word, differs⟩
          rw [List.flatMap_cons, word] at same
          exact absurd (List.cons.inj same).1.symm differs
  | cons x xs ih =>
      cases ys with
      | nil =>
          rcases begins x with ⟨y, w, word, differs⟩
          rw [List.flatMap_cons, word] at same
          exact absurd (List.cons.inj same).1 differs
      | cons y ys =>
          rw [List.flatMap_cons, List.flatMap_cons, List.append_assoc, List.append_assoc] at same
          rcases delimits x y _ _ same with ⟨first, rest⟩
          rcases ih rest with ⟨along, after⟩
          exact ⟨.cons first along, after⟩

end Rigor.Library.Delimited
