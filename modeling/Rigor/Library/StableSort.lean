import Mathlib.Data.List.Sort

/-!
# Stable sorting by a key

A stable sort is known by two properties: the keys ascend, and the elements of one key stand as they
stood before.  A stream that was cut in two by the kind of its elements is put together again by it.
-/

namespace Rigor.Library.StableSort

universe u v w

variable {α : Type u} {ι : Type v} {κ : Type w} [LinearOrder κ]

/-- `sort_by_key`. -/
def sortByKey (key : α → κ) (items : List α) : List α :=
  items.mergeSort fun a b => decide (key a ≤ key b)

variable (key : α → κ)

theorem sortByKey_perm (items : List α) : (sortByKey key items).Perm items :=
  List.mergeSort_perm _ _

theorem le_trans' (a b c : α) (first : decide (key a ≤ key b) = true)
    (second : decide (key b ≤ key c) = true) : decide (key a ≤ key c) = true :=
  decide_eq_true ((of_decide_eq_true first).trans (of_decide_eq_true second))

theorem le_total' (a b : α) : (decide (key a ≤ key b) || decide (key b ≤ key a)) = true := by
  rcases le_total (key a) (key b) with le | le
  · simp [le]
  · simp [le]

theorem pairwise_sortByKey (items : List α) :
    (sortByKey key items).Pairwise fun a b => key a ≤ key b :=
  (List.pairwise_mergeSort (le_trans' key) (le_total' key) items).imp fun le => of_decide_eq_true le

/-- The elements of one key keep their order. -/
theorem filter_sortByKey (items : List α) (k : κ) :
    (sortByKey key items).filter (fun a => key a = k) = items.filter fun a => key a = k := by
  have alike : (items.filter fun a => key a = k).Pairwise fun a b => decide (key a ≤ key b) = true := by
    apply List.pairwise_of_forall_mem_list
    intro a inA b inB
    have ka : key a = k := by simpa using (List.mem_filter.mp inA).2
    have kb : key b = k := by simpa using (List.mem_filter.mp inB).2
    exact decide_eq_true (ka.trans kb.symm).le
  have kept : (items.filter fun a => key a = k).Sublist (sortByKey key items) :=
    List.sublist_mergeSort (le_trans' key) (le_total' key) alike List.filter_sublist
  have inside := kept.filter fun a => decide (key a = k)
  rw [List.filter_filter] at inside
  simp only [Bool.and_self] at inside
  exact (inside.eq_of_length ((sortByKey_perm key items).filter _).length_eq.symm).symm

variable {key}

/-- A list with ascending keys is known by its elements of each key. -/
theorem eq_of_filter_eq {xs ys : List α} (ascending : xs.Pairwise fun a b => key a ≤ key b)
    (ascending' : ys.Pairwise fun a b => key a ≤ key b)
    (same : ∀ k, xs.filter (fun a => key a = k) = ys.filter fun a => key a = k) : xs = ys := by
  have mem_iff (a : α) : a ∈ xs ↔ a ∈ ys := by
    have at_ := congrArg (a ∈ ·) (same (key a))
    simpa using at_
  induction xs generalizing ys with
  | nil =>
      cases ys with
      | nil => rfl
      | cons y ys => exact absurd ((mem_iff y).mpr List.mem_cons_self) List.not_mem_nil
  | cons x xs ih =>
      cases ys with
      | nil => exact absurd ((mem_iff x).mp List.mem_cons_self) List.not_mem_nil
      | cons y ys =>
          rw [List.pairwise_cons] at ascending ascending'
          have below : key x ≤ key y := by
            rcases List.mem_cons.mp ((mem_iff y).mpr List.mem_cons_self) with rfl | later
            · exact le_rfl
            · exact ascending.1 y later
          have above : key y ≤ key x := by
            rcases List.mem_cons.mp ((mem_iff x).mp List.mem_cons_self) with rfl | later
            · exact le_rfl
            · exact ascending'.1 x later
          have heads := same (key x)
          rw [List.filter_cons_of_pos (by simp), List.filter_cons_of_pos
            (by simp [le_antisymm above below])] at heads
          rcases (List.cons.inj heads).1 with rfl
          have tails (k : κ) : xs.filter (fun a => key a = k) = ys.filter fun a => key a = k := by
            have both := same k
            by_cases here : key x = k
            · rw [List.filter_cons_of_pos (by simp [here]), List.filter_cons_of_pos (by simp [here])] at both
              exact (List.cons.inj both).2
            · rw [List.filter_cons_of_neg (by simp [here]), List.filter_cons_of_neg (by simp [here])] at both
              exact both
          have tail_mem_iff (a : α) : a ∈ xs ↔ a ∈ ys := by
            have at_ := congrArg (a ∈ ·) (tails (key a))
            simpa using at_
          rw [ih ascending.2 ascending'.2 tails tail_mem_iff]

/-- Two streams of the same sources, each in the order of the keys of the sources: sorted by the key they
are the stream in which each source gives the elements of both. -/
theorem sortByKey_append {sources : List ι} {place : ι → κ} {first second : ι → List α}
    (ascending : sources.Pairwise fun i j => place i < place j)
    (firstKey : ∀ i, ∀ a ∈ first i, key a = place i) (secondKey : ∀ i, ∀ a ∈ second i, key a = place i) :
    sortByKey key (sources.flatMap first ++ sources.flatMap second) =
      sources.flatMap fun i => first i ++ second i := by
  have keyed (i : ι) : ∀ a ∈ first i ++ second i, key a = place i := by
    intro a mem
    rcases List.mem_append.mp mem with inFirst | inSecond
    · exact firstKey i a inFirst
    · exact secondKey i a inSecond
  apply eq_of_filter_eq (pairwise_sortByKey key _)
  · rw [List.pairwise_flatMap]
    constructor
    · intro i _
      apply List.pairwise_of_forall_mem_list
      intro a inA b inB
      exact ((keyed i a inA).trans (keyed i b inB).symm).le
    · apply ascending.imp
      intro i j less a inA b inB
      rw [keyed i a inA, keyed j b inB]
      exact less.le
  · intro k
    rw [filter_sortByKey, List.filter_append, List.filter_flatMap, List.filter_flatMap, List.filter_flatMap]
    -- at most one source has the key
    induction sources with
    | nil => rfl
    | cons i sources ih =>
        rw [List.pairwise_cons] at ascending
        have tail := ih ascending.2
        by_cases here : place i = k
        · have others (pick : ι → List α) (pickKey : ∀ i, ∀ a ∈ pick i, key a = place i) :
              sources.flatMap (fun j => (pick j).filter fun a => key a = k) = [] := by
            rw [List.flatMap_eq_nil_iff]
            intro j mem
            rw [List.filter_eq_nil_iff]
            intro a inA
            have less := ascending.1 j mem
            rw [here] at less
            simpa [pickKey j a inA] using less.ne'
          have both := others (fun j => first j ++ second j) keyed
          rw [List.flatMap_cons, List.flatMap_cons, List.flatMap_cons, others first firstKey,
            others second secondKey, both, List.filter_append, List.append_nil, List.append_nil,
            List.append_nil]
        · have none (pick : ι → List α) (pickKey : ∀ i, ∀ a ∈ pick i, key a = place i) :
              ((pick i).filter fun a => key a = k) = [] := by
            rw [List.filter_eq_nil_iff]
            intro a inA
            simpa [pickKey i a inA] using here
          simp only [List.flatMap_cons, none first firstKey, none second secondKey,
            none (fun j => first j ++ second j) keyed,
            List.nil_append]
          exact tail

end Rigor.Library.StableSort
