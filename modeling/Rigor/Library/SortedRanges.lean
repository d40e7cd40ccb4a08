import Mathlib.Data.List.Basic

/-!
# Ranges of a sorted list

The items of a sorted list whose keys lie in a range stand between two partition points.
-/

namespace Rigor.Library.SortedRanges

universe u

variable {α : Type u}

/-- Where the items that satisfy the predicate end, if no other item stands before one of them. -/
def partitionPoint (p : α → Bool) (items : List α) : Nat :=
  (items.takeWhile p).length

/-- The items from one position up to another; none if it comes before. -/
def slice (lo hi : Nat) (items : List α) : List α :=
  (items.drop lo).take (max hi lo - lo)

theorem slice_sublist (lo hi : Nat) (items : List α) : (slice lo hi items).Sublist items :=
  (List.take_sublist _ _).trans (List.drop_sublist _ _)

theorem partitionPoint_cons_of_pos {p : α → Bool} {a : α} (holds : p a = true) (items : List α) :
    partitionPoint p (a :: items) = partitionPoint p items + 1 := by
  rw [partitionPoint, List.takeWhile_cons_of_pos holds]
  rfl

theorem partitionPoint_cons_of_neg {p : α → Bool} {a : α} (fails : ¬p a = true) (items : List α) :
    partitionPoint p (a :: items) = 0 := by
  rw [partitionPoint, List.takeWhile_cons_of_neg fails]
  rfl

theorem take_partitionPoint (p : α → Bool) (items : List α) :
    items.take (partitionPoint p items) = items.takeWhile p := by
  induction items with
  | nil => rfl
  | cons a items ih =>
      by_cases holds : p a = true
      · rw [partitionPoint_cons_of_pos holds, List.take_succ_cons, ih,
          List.takeWhile_cons_of_pos holds]
      · rw [partitionPoint_cons_of_neg holds, List.take_zero, List.takeWhile_cons_of_neg holds]

section Keys

/-- The key comes before a bound. -/
def below (key : α → Nat) (bound : Nat) (a : α) : Bool :=
  key a < bound

variable {key : α → Nat} {items : List α} {bound : Nat} {a : α}

@[simp]
theorem below_iff : below key bound a = true ↔ key a < bound :=
  decide_eq_true_iff

/-- The items with keys below a bound stand in front. -/
theorem takeWhile_below (sorted : items.Pairwise fun a b => key a ≤ key b) (bound : Nat) :
    items.takeWhile (below key bound) = items.filter (below key bound) := by
  induction items with
  | nil => rfl
  | cons a items ih =>
      rw [List.pairwise_cons] at sorted
      by_cases front : below key bound a = true
      · rw [List.takeWhile_cons_of_pos front, List.filter_cons_of_pos front, ih sorted.2]
      · rw [List.takeWhile_cons_of_neg front, eq_comm, List.filter_eq_nil_iff]
        rw [below_iff] at front
        intro b mem less
        rw [below_iff] at less
        rcases List.mem_cons.mp mem with rfl | later
        · exact front less
        · exact front (Nat.lt_of_le_of_lt (sorted.1 b later) less)

/-- The items between two partition points are those with keys in the range. -/
theorem slice_below (sorted : items.Pairwise fun a b => key a ≤ key b) (low high : Nat) :
    slice (partitionPoint (below key low) items) (partitionPoint (below key high) items) items =
      items.filter fun a => !below key low a && below key high a := by
  induction items with
  | nil => rfl
  | cons a items ih =>
      have whole := sorted
      rw [List.pairwise_cons] at sorted
      by_cases front : below key low a = true
      · have outside : ¬(!below key low a && below key high a) = true := by
          rw [front]
          exact Bool.false_ne_true
        rw [partitionPoint_cons_of_pos front, List.filter_cons, if_neg outside]
        by_cases passed : below key high a = true
        · rw [partitionPoint_cons_of_pos passed, slice, List.drop_succ_cons,
            Nat.add_max_add_right, Nat.add_sub_add_right]
          exact ih sorted.2
        · rw [partitionPoint_cons_of_neg passed, slice, Nat.zero_max, Nat.sub_self, List.take_zero,
            eq_comm, List.filter_eq_nil_iff]
          rw [below_iff] at passed
          intro b mem inside
          have less := below_iff.mp (Bool.and_eq_true_iff.mp inside).2
          exact passed (Nat.lt_of_le_of_lt (sorted.1 b mem) less)
      · rw [partitionPoint_cons_of_neg front, slice, List.drop_zero, Nat.max_zero, Nat.sub_zero,
          take_partitionPoint, takeWhile_below whole]
        refine List.filter_congr ?_
        intro b mem
        have above : below key low b = false := by
          rw [Bool.eq_false_iff, Ne, below_iff]
          rw [below_iff] at front
          rcases List.mem_cons.mp mem with rfl | later
          · exact front
          · exact fun less => front (Nat.lt_of_le_of_lt (sorted.1 b later) less)
        rw [above]
        rfl

theorem mem_slice_below (sorted : items.Pairwise fun a b => key a ≤ key b) {low high : Nat} :
    a ∈ slice (partitionPoint (below key low) items) (partitionPoint (below key high) items) items ↔
      a ∈ items ∧ low ≤ key a ∧ key a < high := by
  rw [slice_below sorted, List.mem_filter, Bool.and_eq_true, Bool.not_eq_true', Bool.eq_false_iff,
    Ne, below_iff, below_iff, Nat.not_lt]

end Keys

end Rigor.Library.SortedRanges
