import Mathlib.Data.List.Basic

/-!
# Nested scopes

A scope is the list of the names that lead to it, and the scopes around a place are the initial
segments of its own list.  A lexical lookup binds to the innermost of them with a given property.
-/

namespace Rigor.Library

universe u v

variable {α : Type u} {β : Type v}

/-- The innermost scope around `nesting` with the property. -/
structure Innermost (holds : List α → Prop) (nesting scope : List α) : Prop where
  encloses : scope <+: nesting
  answers : holds scope
  nearest : ∀ nearer, nearer <+: nesting → scope.length < nearer.length → ¬ holds nearer

namespace Innermost

variable {holds : List α → Prop} {nesting first second : List α}

theorem length_le (innermost : Innermost holds nesting first) (encloses : second <+: nesting)
    (other : holds second) : second.length ≤ first.length := by
  by_contra longer
  exact innermost.nearest second encloses (by omega) other

theorem unique (one : Innermost holds nesting first) (two : Innermost holds nesting second) :
    first = second := by
  have sameLength : first.length = second.length :=
    Nat.le_antisymm (two.length_le one.encloses one.answers) (one.length_le two.encloses two.answers)
  rw [List.prefix_iff_eq_take.mp one.encloses, List.prefix_iff_eq_take.mp two.encloses, sameLength]

end Innermost

theorem mem_inits_iff {nesting scope : List α} :
    scope ∈ (List.range (nesting.length + 1)).map nesting.take ↔ scope <+: nesting := by
  rw [List.mem_map]
  constructor
  · rintro ⟨i, _, rfl⟩
    exact List.take_prefix i nesting
  · intro encloses
    refine ⟨scope.length, ?_, (List.prefix_iff_eq_take.mp encloses).symm⟩
    rw [List.mem_range]
    exact Nat.lt_succ_of_le encloses.length_le

/-- The last of the items with the greatest key. -/
def lastMaxBy (key : β → Nat) : List β → Option β
  | [] => none
  | item :: rest =>
      match lastMaxBy key rest with
      | none => some item
      | some best => if key item ≤ key best then some best else some item

theorem lastMaxBy_eq_none_iff {key : β → Nat} {items : List β} :
    lastMaxBy key items = none ↔ items = [] := by
  cases items with
  | nil => simp [lastMaxBy]
  | cons item rest =>
      cases best : lastMaxBy key rest with
      | none => simp [lastMaxBy, best]
      | some found =>
          simp only [lastMaxBy, best, reduceCtorEq, iff_false]
          split <;> simp

theorem lastMaxBy_spec {key : β → Nat} {items : List β} {best : β}
    (found : lastMaxBy key items = some best) :
    best ∈ items ∧ ∀ item ∈ items, key item ≤ key best := by
  induction items generalizing best with
  | nil => simp [lastMaxBy] at found
  | cons item rest ih =>
      cases later : lastMaxBy key rest with
      | none =>
          have restNil : rest = [] := lastMaxBy_eq_none_iff.mp later
          simp only [lastMaxBy, later, Option.some.injEq] at found
          simp [restNil, found]
      | some other =>
          have otherSpec := ih later
          simp only [lastMaxBy, later] at found
          split at found
          next itemLe =>
              cases found
              constructor
              · exact List.mem_cons_of_mem item otherSpec.1
              · simpa [itemLe] using otherSpec.2
          next otherLt =>
              cases found
              constructor
              · exact List.mem_cons_self
              · intro candidate member
                rcases List.mem_cons.mp member with rfl | inRest
                · exact Nat.le_refl _
                · exact Nat.le_trans (otherSpec.2 candidate inRest) (by omega)

end Rigor.Library
