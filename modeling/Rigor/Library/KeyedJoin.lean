import Mathlib.Order.Lattice
import Mathlib.Order.BoundedOrder.Basic
import Mathlib.Tactic.Linarith

/-!
# Ordered sets and keyed families as join semilattices

An ordered set is joined by union.  A finite map into a join semilattice with a
least element is joined key by key: a value is joined into the entry of its key,
which starts at the least element.  Folding many keyed values into a map gives at
each key the join of the values for that key, so neither their order nor the way
they are grouped matters.
-/

namespace Rigor.Library

open Std

universe u v

variable {κ : Type u} {β : Type v} {cmp : κ → κ → Ordering} [TransCmp cmp] [LawfulEqCmp cmp]

/-! ## Ordered sets -/

instance instMaxOrderedSet : Max (ExtTreeSet κ cmp) :=
  ⟨(· ∪ ·)⟩

instance instJoinOrderedSet : SemilatticeSup (ExtTreeSet κ cmp) :=
  SemilatticeSup.mk'
    (fun a b => ExtTreeSet.ext_mem fun k => by
      change k ∈ a ∪ b ↔ k ∈ b ∪ a
      rw [ExtTreeSet.mem_union_iff, ExtTreeSet.mem_union_iff, or_comm])
    (fun a b c => ExtTreeSet.ext_mem fun k => by
      change k ∈ a ∪ b ∪ c ↔ k ∈ a ∪ (b ∪ c)
      simp only [ExtTreeSet.mem_union_iff, or_assoc])
    (fun a => ExtTreeSet.ext_mem fun k => by
      change k ∈ a ∪ a ↔ k ∈ a
      rw [ExtTreeSet.mem_union_iff, or_self])

namespace OrderedSet

omit [LawfulEqCmp cmp] in
@[simp]
theorem mem_sup {a b : ExtTreeSet κ cmp} {k : κ} : k ∈ a ⊔ b ↔ k ∈ a ∨ k ∈ b :=
  ExtTreeSet.mem_union_iff

theorem le_iff {a b : ExtTreeSet κ cmp} : a ≤ b ↔ ∀ k ∈ a, k ∈ b := by
  rw [← sup_eq_right]
  constructor
  · intro same k mem
    rw [← same, mem_sup]
    exact Or.inl mem
  · intro subset
    refine ExtTreeSet.ext_mem fun k => ?_
    rw [mem_sup]
    constructor
    · rintro (mem | mem)
      · exact subset k mem
      · exact mem
    · exact Or.inr

instance instBotOrderedSet : OrderBot (ExtTreeSet κ cmp) where
  bot := ∅
  bot_le _ := le_iff.mpr fun k mem => by simp at mem

end OrderedSet

/-! ## Keyed families -/

namespace Keyed

variable [DecidableEq κ] [SemilatticeSup β] [OrderBot β]

/-- Join a value into the entry of its key. -/
def joinInto (family : ExtTreeMap κ β cmp) (item : κ × β) : ExtTreeMap κ β cmp :=
  family.alter item.1 fun old => some (old.getD ⊥ ⊔ item.2)

/-- Join many keyed values, in order. -/
def joinAll (family : ExtTreeMap κ β cmp) (items : List (κ × β)) : ExtTreeMap κ β cmp :=
  items.foldl joinInto family

/-- Join another family, entry by entry. -/
def join (family other : ExtTreeMap κ β cmp) : ExtTreeMap κ β cmp :=
  joinAll family other.toList

theorem getElem?_joinInto (family : ExtTreeMap κ β cmp) (item : κ × β) (k : κ) :
    (joinInto family item)[k]? =
      if item.1 = k then some (family[k]?.getD ⊥ ⊔ item.2) else family[k]? := by
  rw [joinInto, ExtTreeMap.getElem?_alter]
  by_cases same : item.1 = k
  · subst same
    simp
  · simp [same]

/-- The values for a key. -/
def valuesAt (items : List (κ × β)) (k : κ) : List β :=
  (items.filter fun item => item.1 = k).map Prod.snd

/-- The entry of a key after joining many values: the join of those for the key. -/
theorem getElem?_joinAll (family : ExtTreeMap κ β cmp) (items : List (κ × β)) (k : κ) :
    (joinAll family items)[k]? =
      (valuesAt items k).foldl (fun old value => some (old.getD ⊥ ⊔ value)) family[k]? := by
  induction items generalizing family with
  | nil => rfl
  | cons item items ih =>
      rw [joinAll, List.foldl_cons, ← joinAll, ih, getElem?_joinInto]
      by_cases same : item.1 = k <;> simp [valuesAt, same]

theorem joinInto_comm (family : ExtTreeMap κ β cmp) (first second : κ × β) :
    joinInto (joinInto family first) second = joinInto (joinInto family second) first := by
  refine ExtTreeMap.ext_getElem? fun k => ?_
  simp only [getElem?_joinInto]
  by_cases sameFirst : first.1 = k <;> by_cases sameSecond : second.1 = k <;>
    simp [sameFirst, sameSecond, sup_right_comm]

/-- The order of the values does not matter. -/
theorem joinAll_perm {items reordered : List (κ × β)} (perm : items.Perm reordered)
    (family : ExtTreeMap κ β cmp) : joinAll family items = joinAll family reordered := by
  refine perm.foldl_eq' ?_ family
  intro first _ second _ before
  exact joinInto_comm before first second

omit [SemilatticeSup β] [OrderBot β] in
/-- A family lists at most one value for a key. -/
theorem valuesAt_toList (family : ExtTreeMap κ β cmp) (k : κ) :
    valuesAt family.toList k = family[k]?.toList := by
  cases held : family[k]? with
  | none =>
      have absent : ∀ item ∈ family.toList, item.1 ≠ k := by
        rintro ⟨key, value⟩ mem rfl
        rw [ExtTreeMap.mem_toList_iff_getElem?_eq_some, held] at mem
        exact absurd mem (by simp)
      rw [valuesAt, List.filter_eq_nil_iff.mpr (by simpa using absent)]
      rfl
  | some value =>
      obtain ⟨front, back, split⟩ :=
        List.append_of_mem (ExtTreeMap.mem_toList_iff_getElem?_eq_some.mpr held)
      have distinct := ExtTreeMap.distinct_keys_toList (t := family)
      rw [split, List.pairwise_append, List.pairwise_cons] at distinct
      obtain ⟨-, ⟨laterDiffer, -⟩, earlierDiffer⟩ := distinct
      have notFront : front.filter (fun item => item.1 = k) = [] := by
        rw [List.filter_eq_nil_iff]
        intro item mem
        rw [decide_eq_true_eq]
        rintro rfl
        exact earlierDiffer item mem _ List.mem_cons_self ReflCmp.compare_self
      have notBack : back.filter (fun item => item.1 = k) = [] := by
        rw [List.filter_eq_nil_iff]
        intro item mem
        rw [decide_eq_true_eq]
        rintro rfl
        exact laterDiffer item mem ReflCmp.compare_self
      rw [split, valuesAt, List.filter_append, notFront, List.filter_cons, notBack]
      simp

/-- The entry of a key in a join: whichever entries there are, joined. -/
theorem getElem?_join (family other : ExtTreeMap κ β cmp) (k : κ) :
    (join family other)[k]? =
      match family[k]?, other[k]? with
      | none, none => none
      | some value, none => some value
      | none, some value => some value
      | some value, some added => some (value ⊔ added) := by
  rw [join, getElem?_joinAll, valuesAt_toList]
  cases family[k]? <;> cases other[k]? <;> simp

instance instMaxKeyed : Max (ExtTreeMap κ β cmp) :=
  ⟨join⟩

theorem getElem?_sup (family other : ExtTreeMap κ β cmp) (k : κ) :
    (family ⊔ other)[k]? =
      match family[k]?, other[k]? with
      | none, none => none
      | some value, none => some value
      | none, some value => some value
      | some value, some added => some (value ⊔ added) :=
  getElem?_join family other k

instance instJoinKeyed : SemilatticeSup (ExtTreeMap κ β cmp) :=
  SemilatticeSup.mk'
    (fun a b => ExtTreeMap.ext_getElem? fun k => by
      rw [getElem?_sup, getElem?_sup]
      cases a[k]? <;> cases b[k]? <;> simp [sup_comm])
    (fun first second third => ExtTreeMap.ext_getElem? fun k => by
      simp only [getElem?_sup]
      cases first[k]? <;> cases second[k]? <;> cases third[k]? <;> simp [sup_assoc])
    (fun a => ExtTreeMap.ext_getElem? fun k => by
      rw [getElem?_sup]
      cases a[k]? <;> simp)

instance instBotKeyed : OrderBot (ExtTreeMap κ β cmp) where
  bot := ∅
  bot_le a := by
    rw [← sup_eq_right]
    refine ExtTreeMap.ext_getElem? fun k => ?_
    rw [getElem?_sup]
    cases a[k]? <;> simp

/-- An entry grows with its family. -/
theorem getElem?_of_le {family larger : ExtTreeMap κ β cmp} (le : family ≤ larger) {k : κ}
    {value : β} (held : family[k]? = some value) :
    ∃ grown, larger[k]? = some grown ∧ value ≤ grown := by
  rw [← sup_eq_right] at le
  rw [← le, getElem?_sup, held]
  cases larger[k]? with
  | none => exact ⟨value, rfl, le_rfl⟩
  | some added => exact ⟨value ⊔ added, rfl, le_sup_left⟩

theorem joinInto_eq_sup (family : ExtTreeMap κ β cmp) (item : κ × β) :
    joinInto family item = family ⊔ joinInto ⊥ item := by
  refine ExtTreeMap.ext_getElem? fun k => ?_
  rw [getElem?_sup, getElem?_joinInto, getElem?_joinInto]
  have nothing : (⊥ : ExtTreeMap κ β cmp)[k]? = none := ExtTreeMap.getElem?_empty
  rw [nothing]
  by_cases same : item.1 = k <;> cases family[k]? <;> simp [same]

theorem joinAll_eq_sup (family : ExtTreeMap κ β cmp) (items : List (κ × β)) :
    joinAll family items = family ⊔ joinAll ⊥ items := by
  induction items generalizing family with
  | nil => exact (sup_bot_eq family).symm
  | cons item items ih =>
      rw [joinAll, List.foldl_cons, ← joinAll, ih, joinInto_eq_sup, sup_assoc]
      congr 1
      rw [← ih]
      rfl

omit [LawfulEqCmp cmp] [DecidableEq κ] in
theorem joinAll_append (family : ExtTreeMap κ β cmp) (front back : List (κ × β)) :
    joinAll family (front ++ back) = joinAll (joinAll family front) back :=
  List.foldl_append

end Keyed

end Rigor.Library
