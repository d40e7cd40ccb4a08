import Mathlib.Data.List.Basic

/-!
# Comparators that are linear on a part of their domain

A comparator that looks its arguments up in a store is an order only on the
arguments the store holds, and a recursive comparator is known to be an order
only on the arguments already treated.  `LinearOn P cmp` says that `cmp` is a
strict linear order on the elements satisfying `P`; lexicographic comparison and
comparison through an injective code inherit it.
-/

namespace Rigor.Library.Order

universe u v

variable {α : Type u} {β : Type v}

/-- `cmp` is a strict linear order on the elements satisfying `P`. -/
structure LinearOn (P : α → Prop) (cmp : α → α → Ordering) : Prop where
  eq_iff : ∀ {a b}, P a → P b → (cmp a b = .eq ↔ a = b)
  swap : ∀ {a b}, P a → P b → cmp b a = (cmp a b).swap
  trans : ∀ {a b c}, P a → P b → P c → cmp a b = .lt → cmp b c = .lt → cmp a c = .lt

namespace LinearOn

variable {P Q : α → Prop} {cmp : α → α → Ordering}

theorem self (linear : LinearOn P cmp) {a : α} (holds : P a) : cmp a a = .eq :=
  (linear.eq_iff holds holds).mpr rfl

theorem trans_ne_gt (linear : LinearOn P cmp) {a b c : α} (aHolds : P a) (bHolds : P b)
    (cHolds : P c) (first : cmp a b ≠ .gt) (second : cmp b c ≠ .gt) : cmp a c ≠ .gt := by
  cases ab : cmp a b with
  | gt => exact absurd ab first
  | eq =>
      rw [(linear.eq_iff aHolds bHolds).mp ab]
      exact second
  | lt =>
      cases bc : cmp b c with
      | gt => exact absurd bc second
      | eq =>
          rw [← (linear.eq_iff bHolds cHolds).mp bc]
          exact first
      | lt =>
          rw [linear.trans aHolds bHolds cHolds ab bc]
          nofun

theorem mono (linear : LinearOn P cmp) (included : ∀ a, Q a → P a) : LinearOn Q cmp where
  eq_iff aHolds bHolds := linear.eq_iff (included _ aHolds) (included _ bHolds)
  swap aHolds bHolds := linear.swap (included _ aHolds) (included _ bHolds)
  trans aHolds bHolds cHolds :=
    linear.trans (included _ aHolds) (included _ bHolds) (included _ cHolds)

/-- Comparison through a code that is injective on the elements compared. -/
theorem comap {R : β → Prop} {code : β → α} (linear : LinearOn P cmp)
    (holds : ∀ b, R b → P (code b))
    (injective : ∀ a b, R a → R b → code a = code b → a = b) :
    LinearOn R fun a b => cmp (code a) (code b) where
  eq_iff aHolds bHolds := by
    rw [linear.eq_iff (holds _ aHolds) (holds _ bHolds)]
    exact ⟨injective _ _ aHolds bHolds, congrArg code⟩
  swap aHolds bHolds := linear.swap (holds _ aHolds) (holds _ bHolds)
  trans aHolds bHolds cHolds :=
    linear.trans (holds _ aHolds) (holds _ bHolds) (holds _ cHolds)

theorem congr {other : α → α → Ordering} (linear : LinearOn P cmp)
    (same : ∀ a b, P a → P b → other a b = cmp a b) : LinearOn P other where
  eq_iff aHolds bHolds := by
    rw [same _ _ aHolds bHolds]
    exact linear.eq_iff aHolds bHolds
  swap aHolds bHolds := by
    rw [same _ _ aHolds bHolds, same _ _ bHolds aHolds]
    exact linear.swap aHolds bHolds
  trans aHolds bHolds cHolds := by
    rw [same _ _ aHolds bHolds, same _ _ bHolds cHolds, same _ _ aHolds cHolds]
    exact linear.trans aHolds bHolds cHolds

/-- A lawful comparator is linear on everything. -/
theorem of_lawful (cmp : α → α → Ordering) [Std.TransCmp cmp] [Std.LawfulEqCmp cmp] :
    LinearOn (fun _ => True) cmp where
  eq_iff _ _ := Std.LawfulEqCmp.compare_eq_iff_eq
  swap _ _ := Std.OrientedCmp.eq_swap
  trans _ _ _ := Std.TransCmp.lt_trans

end LinearOn

/-! ## Lexicographic comparison -/

section Lexicographic

variable {P : α → Prop} {cmp : α → α → Ordering}

theorem compareLex_eq_iff (linear : LinearOn P cmp) {xs ys : List α}
    (xsHold : ∀ x ∈ xs, P x) (ysHold : ∀ y ∈ ys, P y) :
    List.compareLex cmp xs ys = .eq ↔ xs = ys := by
  induction xs generalizing ys with
  | nil => cases ys <;> simp [List.compareLex]
  | cons x xs ih =>
      cases ys with
      | nil => simp [List.compareLex]
      | cons y ys =>
          rw [List.forall_mem_cons] at xsHold ysHold
          rw [List.compareLex_cons_cons, Ordering.then_eq_eq,
            linear.eq_iff xsHold.1 ysHold.1, ih xsHold.2 ysHold.2, List.cons.injEq]

theorem compareLex_swap (linear : LinearOn P cmp) {xs ys : List α}
    (xsHold : ∀ x ∈ xs, P x) (ysHold : ∀ y ∈ ys, P y) :
    List.compareLex cmp ys xs = (List.compareLex cmp xs ys).swap := by
  induction xs generalizing ys with
  | nil => cases ys <;> simp [List.compareLex]
  | cons x xs ih =>
      cases ys with
      | nil => simp [List.compareLex]
      | cons y ys =>
          rw [List.forall_mem_cons] at xsHold ysHold
          rw [List.compareLex_cons_cons, List.compareLex_cons_cons, Ordering.swap_then,
            linear.swap xsHold.1 ysHold.1, ih xsHold.2 ysHold.2]

theorem compareLex_trans (linear : LinearOn P cmp) {xs ys zs : List α}
    (xsHold : ∀ x ∈ xs, P x) (ysHold : ∀ y ∈ ys, P y) (zsHold : ∀ z ∈ zs, P z)
    (first : List.compareLex cmp xs ys = .lt) (second : List.compareLex cmp ys zs = .lt) :
    List.compareLex cmp xs zs = .lt := by
  induction xs generalizing ys zs with
  | nil =>
      cases zs with
      | nil => cases ys <;> simp [List.compareLex] at first second
      | cons z zs => rfl
  | cons x xs ih =>
      cases ys with
      | nil => simp [List.compareLex] at first
      | cons y ys =>
          cases zs with
          | nil => simp [List.compareLex] at second
          | cons z zs =>
              rw [List.forall_mem_cons] at xsHold ysHold zsHold
              rw [List.compareLex_cons_cons, Ordering.then_eq_lt] at first second ⊢
              rcases first with xy | ⟨xy, xsys⟩
              · rcases second with yz | ⟨yz, -⟩
                · exact Or.inl (linear.trans xsHold.1 ysHold.1 zsHold.1 xy yz)
                · obtain rfl := (linear.eq_iff ysHold.1 zsHold.1).mp yz
                  exact Or.inl xy
              · obtain rfl := (linear.eq_iff xsHold.1 ysHold.1).mp xy
                rcases second with yz | ⟨yz, yszs⟩
                · exact Or.inl yz
                · exact Or.inr ⟨yz, ih xsHold.2 ysHold.2 zsHold.2 xsys yszs⟩

/-- Lexicographic comparison of lists of comparable elements. -/
theorem LinearOn.lex (linear : LinearOn P cmp) :
    LinearOn (fun xs : List α => ∀ x ∈ xs, P x) (List.compareLex cmp) where
  eq_iff xsHold ysHold := compareLex_eq_iff linear xsHold ysHold
  swap xsHold ysHold := compareLex_swap linear xsHold ysHold
  trans xsHold ysHold zsHold := compareLex_trans linear xsHold ysHold zsHold

/-- Blocks of equal length are compared before what follows them. -/
theorem compareLex_append {xs ys : List α} (sameLength : xs.length = ys.length)
    (xsRest ysRest : List α) :
    List.compareLex cmp (xs ++ xsRest) (ys ++ ysRest) =
      (List.compareLex cmp xs ys).then (List.compareLex cmp xsRest ysRest) := by
  induction xs generalizing ys with
  | nil =>
      obtain rfl := List.eq_nil_of_length_eq_zero sameLength.symm
      rfl
  | cons x xs ih =>
      cases ys with
      | nil => simp at sameLength
      | cons y ys =>
          rw [List.cons_append, List.cons_append, List.compareLex_cons_cons,
            List.compareLex_cons_cons, ih (by simpa using sameLength), Ordering.then_assoc]

/-- Comparators that agree along two codes compare the coded lists alike. -/
theorem compareLex_congr {γ : Type*} {other : β → β → Ordering} {xs ys : List α}
    {xs' ys' : List β} (image : α → γ) (image' : β → γ)
    (sameXs : xs.map image = xs'.map image') (sameYs : ys.map image = ys'.map image')
    (agree : ∀ x ∈ xs, ∀ y ∈ ys, ∀ x' ∈ xs', ∀ y' ∈ ys', image x = image' x' →
      image y = image' y' → cmp x y = other x' y') :
    List.compareLex cmp xs ys = List.compareLex other xs' ys' := by
  induction xs generalizing ys xs' ys' with
  | nil =>
      obtain rfl : xs' = [] := by simpa using sameXs.symm
      cases ys with
      | nil =>
          obtain rfl : ys' = [] := by simpa using sameYs.symm
          rfl
      | cons y ys =>
          cases ys' with
          | nil => simp at sameYs
          | cons y' ys' => rfl
  | cons x xs ih =>
      cases xs' with
      | nil => simp at sameXs
      | cons x' xs' =>
          cases ys with
          | nil =>
              obtain rfl : ys' = [] := by simpa using sameYs.symm
              rfl
          | cons y ys =>
              cases ys' with
              | nil => simp at sameYs
              | cons y' ys' =>
                  rw [List.map_cons, List.map_cons, List.cons.injEq] at sameXs sameYs
                  rw [List.compareLex_cons_cons, List.compareLex_cons_cons,
                    agree x List.mem_cons_self y List.mem_cons_self x' List.mem_cons_self y'
                      List.mem_cons_self sameXs.1 sameYs.1,
                    ih sameXs.2 sameYs.2 fun x₁ x₁Mem y₁ y₁Mem x₂ x₂Mem y₂ y₂Mem =>
                      agree x₁ (List.mem_cons_of_mem _ x₁Mem) y₁ (List.mem_cons_of_mem _ y₁Mem)
                        x₂ (List.mem_cons_of_mem _ x₂Mem) y₂ (List.mem_cons_of_mem _ y₂Mem)]

end Lexicographic

/-! ## Sorting with a fallible comparator -/

section Sorting

/-- Insert into a sorted list, in front of the elements not below. -/
def insertBy (cmp : α → α → Option Ordering) (item : α) : List α → Option (List α)
  | [] => some [item]
  | head :: rest =>
      match cmp item head with
      | none => none
      | some .gt => (insertBy cmp item rest).map (head :: ·)
      | some _ => some (item :: head :: rest)

/-- Stable sort; `none` when a comparison has no answer. -/
def sortBy (cmp : α → α → Option Ordering) : List α → Option (List α)
  | [] => some []
  | head :: rest => (sortBy cmp rest).bind (insertBy cmp head)

/-- Drop consecutive repetitions. -/
def dedupAdjacent [DecidableEq α] : List α → List α
  | [] => []
  | [item] => [item]
  | first :: second :: rest =>
      if first = second then dedupAdjacent (second :: rest)
      else first :: dedupAdjacent (second :: rest)

variable {P : α → Prop} {cmp : α → α → Ordering} {fallible : α → α → Option Ordering}

theorem insertBy_congr {other : α → α → Option Ordering} {item : α} {items : List α}
    (same : ∀ head ∈ items, fallible item head = other item head) :
    insertBy fallible item items = insertBy other item items := by
  induction items with
  | nil => rfl
  | cons head rest ih =>
      rw [List.forall_mem_cons] at same
      rw [insertBy, insertBy, same.1, ih same.2]

theorem insertBy_subset {item : α} {items result : List α}
    (inserted : insertBy fallible item items = some result) :
    ∀ other ∈ result, other = item ∨ other ∈ items := by
  induction items generalizing result with
  | nil =>
      obtain rfl := Option.some.inj inserted
      simp
  | cons head rest ih =>
      rw [insertBy] at inserted
      split at inserted
      · exact absurd inserted (by simp)
      · obtain ⟨tail, tailInserted, rfl⟩ := Option.map_eq_some_iff.mp inserted
        intro other otherMem
        rcases List.mem_cons.mp otherMem with rfl | inTail
        · exact Or.inr List.mem_cons_self
        · rcases ih tailInserted other inTail with same | inRest
          · exact Or.inl same
          · exact Or.inr (List.mem_cons_of_mem _ inRest)
      · obtain rfl := Option.some.inj inserted
        intro other otherMem
        exact List.mem_cons.mp otherMem

theorem sortBy_subset {items result : List α} (sorted : sortBy fallible items = some result) :
    ∀ item ∈ result, item ∈ items := by
  induction items generalizing result with
  | nil =>
      obtain rfl := Option.some.inj sorted
      simp
  | cons head rest ih =>
      obtain ⟨tail, tailSorted, inserted⟩ := Option.bind_eq_some_iff.mp sorted
      intro item itemMem
      rcases insertBy_subset inserted item itemMem with rfl | inTail
      · exact List.mem_cons_self
      · exact List.mem_cons_of_mem _ (ih tailSorted item inTail)

/-- Sorting depends only on how the items compare. -/
theorem sortBy_congr {other : α → α → Option Ordering} {items : List α}
    (same : ∀ a ∈ items, ∀ b ∈ items, fallible a b = other a b) :
    sortBy fallible items = sortBy other items := by
  induction items with
  | nil => rfl
  | cons head rest ih =>
      rw [sortBy, sortBy, ih fun a aMem b bMem =>
        same a (List.mem_cons_of_mem _ aMem) b (List.mem_cons_of_mem _ bMem)]
      cases sorted : sortBy other rest with
      | none => rfl
      | some result =>
          apply insertBy_congr
          intro b bMem
          exact same head List.mem_cons_self b
            (List.mem_cons_of_mem _ (sortBy_subset sorted b bMem))

theorem insertBy_spec (linear : LinearOn P cmp)
    (defined : ∀ a b, P a → P b → fallible a b = some (cmp a b)) {item : α} {items : List α}
    (itemHolds : P item) (itemsHold : ∀ other ∈ items, P other)
    (sorted : items.Pairwise fun a b => cmp a b ≠ .gt) :
    ∃ result, insertBy fallible item items = some result ∧ result.Perm (item :: items) ∧
      result.Pairwise fun a b => cmp a b ≠ .gt := by
  induction items with
  | nil => exact ⟨[item], rfl, List.Perm.refl _, List.pairwise_singleton _ _⟩
  | cons head rest ih =>
      rw [List.forall_mem_cons] at itemsHold
      rw [List.pairwise_cons] at sorted
      have compared := defined item head itemHolds itemsHold.1
      cases order : cmp item head with
      | gt =>
          obtain ⟨result, inserted, perm, resultSorted⟩ := ih itemsHold.2 sorted.2
          refine ⟨head :: result, by simp [insertBy, compared, order, inserted],
            (perm.cons head).trans (List.Perm.swap item head rest), ?_⟩
          rw [List.pairwise_cons]
          refine ⟨fun other otherMem => ?_, resultSorted⟩
          rcases List.mem_cons.mp (perm.mem_iff.mp otherMem) with rfl | inRest
          · rw [linear.swap itemHolds itemsHold.1, order]
            decide
          · exact sorted.1 other inRest
      | eq =>
          obtain rfl := (linear.eq_iff itemHolds itemsHold.1).mp order
          refine ⟨item :: item :: rest, by simp [insertBy, compared, order],
            List.Perm.refl _, ?_⟩
          rw [List.pairwise_cons, List.forall_mem_cons, List.pairwise_cons]
          exact ⟨⟨by rw [order]; decide, sorted.1⟩, sorted⟩
      | lt =>
          refine ⟨item :: head :: rest, by simp [insertBy, compared, order],
            List.Perm.refl _, ?_⟩
          rw [List.pairwise_cons, List.forall_mem_cons, List.pairwise_cons]
          refine ⟨⟨by rw [order]; decide, fun other otherMem => ?_⟩, sorted⟩
          have otherHolds := itemsHold.2 other otherMem
          cases next : cmp head other with
          | gt => exact absurd next (sorted.1 other otherMem)
          | eq =>
              obtain rfl := (linear.eq_iff itemsHold.1 otherHolds).mp next
              rw [order]
              decide
          | lt =>
              rw [linear.trans itemHolds itemsHold.1 otherHolds order next]
              decide

theorem sortBy_spec (linear : LinearOn P cmp)
    (defined : ∀ a b, P a → P b → fallible a b = some (cmp a b)) {items : List α}
    (itemsHold : ∀ item ∈ items, P item) :
    ∃ result, sortBy fallible items = some result ∧ result.Perm items ∧
      result.Pairwise fun a b => cmp a b ≠ .gt := by
  induction items with
  | nil => exact ⟨[], rfl, List.Perm.refl _, List.Pairwise.nil⟩
  | cons head rest ih =>
      rw [List.forall_mem_cons] at itemsHold
      obtain ⟨sorted, sortedEq, sortedPerm, isSorted⟩ := ih itemsHold.2
      obtain ⟨result, inserted, perm, resultSorted⟩ :=
        insertBy_spec linear defined itemsHold.1
          (fun other otherMem => itemsHold.2 other (sortedPerm.mem_iff.mp otherMem)) isSorted
      exact ⟨result, by simp [sortBy, sortedEq, inserted], perm.trans (sortedPerm.cons head),
        resultSorted⟩

variable [DecidableEq α]

@[simp]
theorem mem_dedupAdjacent {items : List α} {item : α} :
    item ∈ dedupAdjacent items ↔ item ∈ items := by
  induction items using dedupAdjacent.induct with
  | case1 => simp [dedupAdjacent]
  | case2 only => simp [dedupAdjacent]
  | case3 first rest ih => simp [dedupAdjacent, ih]
  | case4 first second rest distinct ih => simp [dedupAdjacent, distinct, ih]

/-- A strictly increasing list. -/
def Increasing (cmp : α → α → Ordering) (items : List α) : Prop :=
  items.Pairwise fun a b => cmp a b = .lt

theorem increasing_dedupAdjacent (linear : LinearOn P cmp) {items : List α}
    (itemsHold : ∀ item ∈ items, P item) (sorted : items.Pairwise fun a b => cmp a b ≠ .gt) :
    Increasing cmp (dedupAdjacent items) := by
  induction items using dedupAdjacent.induct with
  | case1 => exact List.Pairwise.nil
  | case2 only => exact List.pairwise_singleton _ _
  | case3 first rest ih =>
      rw [List.forall_mem_cons] at itemsHold
      rw [List.pairwise_cons] at sorted
      simpa [dedupAdjacent] using ih itemsHold.2 sorted.2
  | case4 first second rest distinct ih =>
      rw [List.forall_mem_cons] at itemsHold
      rw [List.pairwise_cons] at sorted
      simp only [dedupAdjacent, distinct, if_false, Increasing, List.pairwise_cons]
      refine ⟨fun other otherMem => ?_, ih itemsHold.2 sorted.2⟩
      have otherMem := mem_dedupAdjacent.mp otherMem
      have secondHolds := itemsHold.2 second List.mem_cons_self
      have otherHolds := itemsHold.2 other otherMem
      have firstSecond : cmp first second = .lt := by
        cases order : cmp first second with
        | lt => rfl
        | eq => exact absurd ((linear.eq_iff itemsHold.1 secondHolds).mp order) distinct
        | gt => exact absurd order (sorted.1 second List.mem_cons_self)
      rcases List.mem_cons.mp otherMem with rfl | inRest
      · exact firstSecond
      · have secondOther := (List.pairwise_cons.mp sorted.2).1 other inRest
        cases order : cmp second other with
        | lt => exact linear.trans itemsHold.1 secondHolds otherHolds firstSecond order
        | eq =>
            obtain rfl := (linear.eq_iff secondHolds otherHolds).mp order
            exact firstSecond
        | gt => exact absurd order secondOther

omit [DecidableEq α] in
theorem Increasing.nodup (linear : LinearOn P cmp) {items : List α}
    (itemsHold : ∀ item ∈ items, P item) (increasing : Increasing cmp items) :
    items.Nodup := by
  refine List.Pairwise.imp_of_mem ?_ increasing
  intro a b aMem bMem below same
  subst same
  rw [linear.self (itemsHold a aMem)] at below
  exact absurd below (by decide)

omit [DecidableEq α] in
/-- Strictly increasing lists with the same members are equal. -/
theorem Increasing.ext (linear : LinearOn P cmp) {xs ys : List α} (xsHold : ∀ x ∈ xs, P x)
    (ysHold : ∀ y ∈ ys, P y) (xsIncreasing : Increasing cmp xs)
    (ysIncreasing : Increasing cmp ys) (same : ∀ a, a ∈ xs ↔ a ∈ ys) : xs = ys := by
  have perm := (List.perm_ext_iff_of_nodup (xsIncreasing.nodup linear xsHold)
    (ysIncreasing.nodup linear ysHold)).mpr same
  refine perm.eq_of_pairwise ?_ xsIncreasing ysIncreasing
  intro a b aMem bMem below above
  rw [linear.swap (xsHold a aMem) (ysHold b bMem), below] at above
  exact absurd above (by decide)

end Sorting

end Rigor.Library.Order
