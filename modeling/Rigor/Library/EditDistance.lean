import Mathlib.Data.List.Infix
import Mathlib.Order.Bounds.Basic

/-!
# Edit distance

The least number of single-item insertions, deletions and replacements between two
lists.  Alignments count the edits from left to right; they can be read backwards and
cut in two, which gives the recurrence at the last items and the bounds of the rows of
the distance table.
-/

namespace Rigor.Library.EditDistance

universe u

variable {α : Type u}

/-- One insertion, deletion or replacement. -/
inductive Edit : List α → List α → Prop where
  | insert (front : List α) (a : α) (back : List α) : Edit (front ++ back) (front ++ a :: back)
  | delete (front : List α) (a : α) (back : List α) : Edit (front ++ a :: back) (front ++ back)
  | replace (front : List α) (a b : α) (back : List α) :
      Edit (front ++ a :: back) (front ++ b :: back)

/-- So many edits lead from one list to the other. -/
inductive Edits : Nat → List α → List α → Prop where
  | refl (xs : List α) : Edits 0 xs xs
  | tail {n : Nat} {xs ys zs : List α} (edits : Edits n xs ys) (edit : Edit ys zs) :
      Edits (n + 1) xs zs

theorem Edits.trans {m n : Nat} {xs ys zs : List α} (first : Edits m xs ys)
    (second : Edits n ys zs) : Edits (m + n) xs zs := by
  induction second with
  | refl => exact first
  | tail _ edit ih => exact .tail (ih first) edit

theorem Edits.single {xs ys : List α} (edit : Edit xs ys) : Edits 1 xs ys :=
  .tail (.refl xs) edit

/-- Edits go through under a common first item. -/
theorem Edits.cons {n : Nat} {xs ys : List α} (a : α) (edits : Edits n xs ys) :
    Edits n (a :: xs) (a :: ys) := by
  induction edits with
  | refl => exact .refl _
  | tail _ edit ih =>
      refine .tail ih ?_
      cases edit with
      | insert front b back => exact .insert (a :: front) b back
      | delete front b back => exact .delete (a :: front) b back
      | replace front b c back => exact .replace (a :: front) b c back

section Distance

variable [DecidableEq α]

/-- The cost of replacing an item. -/
def cost (a b : α) : Nat :=
  if a = b then 0 else 1

/-- The edit distance, by its recurrence at the first items. -/
def distance : List α → List α → Nat
  | [], ys => ys.length
  | x :: xs, [] => (x :: xs).length
  | x :: xs, y :: ys =>
      min (min (distance xs (y :: ys) + 1) (distance (x :: xs) ys + 1)) (distance xs ys + cost x y)
termination_by xs ys => xs.length + ys.length

/-- Deletions, insertions and replacements that align two lists, with their cost. -/
inductive Alignment : List α → List α → Nat → Prop where
  | nil : Alignment [] [] 0
  | delete {xs ys : List α} {n : Nat} (x : α) (rest : Alignment xs ys n) :
      Alignment (x :: xs) ys (n + 1)
  | insert {xs ys : List α} {n : Nat} (y : α) (rest : Alignment xs ys n) :
      Alignment xs (y :: ys) (n + 1)
  | replace {xs ys : List α} {n : Nat} (x y : α) (rest : Alignment xs ys n) :
      Alignment (x :: xs) (y :: ys) (n + cost x y)

variable {xs ys zs : List α} {m n : Nat}

@[simp]
theorem distance_nil_left (ys : List α) : distance [] ys = ys.length := by
  rw [distance]

@[simp]
theorem distance_nil_right (xs : List α) : distance xs [] = xs.length := by
  cases xs with
  | nil => rw [distance]
  | cons x xs => rw [distance]

theorem distance_cons_cons (x y : α) (xs ys : List α) : distance (x :: xs) (y :: ys) =
    min (min (distance xs (y :: ys) + 1) (distance (x :: xs) ys + 1))
      (distance xs ys + cost x y) := by
  rw [distance]

theorem cost_le_one (a b : α) : cost a b ≤ 1 := by
  unfold cost
  split_ifs <;> decide

theorem cost_comm (a b : α) : cost a b = cost b a := by
  simp only [cost, eq_comm]

theorem cost_self (a : α) : cost a a = 0 :=
  if_pos rfl

/-! ## Alignments -/

namespace Alignment

theorem deletions (xs : List α) : Alignment xs [] xs.length := by
  induction xs with
  | nil => exact .nil
  | cons x xs ih => exact .delete x ih

theorem insertions (ys : List α) : Alignment [] ys ys.length := by
  induction ys with
  | nil => exact .nil
  | cons y ys ih => exact .insert y ih

theorem append {xs' ys' : List α} (front : Alignment xs ys m) (back : Alignment xs' ys' n) :
    Alignment (xs ++ xs') (ys ++ ys') (m + n) := by
  induction front with
  | nil => simpa using back
  | delete x _ ih => simpa [Nat.add_right_comm] using ih.delete x
  | insert y _ ih => simpa [Nat.add_right_comm] using ih.insert y
  | replace x y _ ih => simpa [Nat.add_right_comm] using ih.replace x y

theorem reverse (alignment : Alignment xs ys n) : Alignment xs.reverse ys.reverse n := by
  induction alignment with
  | nil => exact .nil
  | delete x _ ih => simpa using ih.append (.delete x .nil)
  | insert y _ ih => simpa using ih.append (.insert y .nil)
  | replace x y _ ih => simpa using ih.append (.replace x y .nil)

/-- An alignment of a list in two parts cuts the other list in two. -/
theorem split {front back : List α} (alignment : Alignment (front ++ back) ys n) :
    ∃ ys₁ ys₂ n₁ n₂, ys = ys₁ ++ ys₂ ∧ n = n₁ + n₂ ∧ Alignment front ys₁ n₁ ∧
      Alignment back ys₂ n₂ := by
  generalize whole : front ++ back = xs at alignment
  induction alignment generalizing front with
  | nil =>
      obtain ⟨rfl, rfl⟩ := List.append_eq_nil_iff.mp whole
      exact ⟨[], [], 0, 0, rfl, rfl, .nil, .nil⟩
  | @delete xs ys n x rest ih =>
      cases front with
      | nil =>
          obtain rfl : back = x :: xs := whole
          exact ⟨[], ys, 0, n + 1, rfl, (Nat.zero_add _).symm, .nil, rest.delete x⟩
      | cons a front =>
          obtain ⟨rfl, same⟩ := List.cons.inj whole
          obtain ⟨ys₁, ys₂, n₁, n₂, rfl, rfl, first, second⟩ := ih same
          exact ⟨ys₁, ys₂, n₁ + 1, n₂, rfl, Nat.add_right_comm _ _ _, first.delete a, second⟩
  | insert y _ ih =>
      obtain ⟨ys₁, ys₂, n₁, n₂, rfl, rfl, first, second⟩ := ih whole
      exact ⟨y :: ys₁, ys₂, n₁ + 1, n₂, rfl, Nat.add_right_comm _ _ _, first.insert y, second⟩
  | @replace xs ys n x y rest ih =>
      cases front with
      | nil =>
          obtain rfl : back = x :: xs := whole
          exact ⟨[], y :: ys, 0, n + cost x y, rfl, (Nat.zero_add _).symm, .nil, rest.replace x y⟩
      | cons a front =>
          obtain ⟨rfl, same⟩ := List.cons.inj whole
          obtain ⟨ys₁, ys₂, n₁, n₂, rfl, rfl, first, second⟩ := ih same
          exact ⟨y :: ys₁, ys₂, n₁ + cost a y, n₂, rfl, Nat.add_right_comm _ _ _,
            first.replace a y, second⟩

/-- The lengths differ by at most the cost. -/
theorem length_le (alignment : Alignment xs ys n) :
    xs.length ≤ ys.length + n ∧ ys.length ≤ xs.length + n := by
  induction alignment with
  | nil => exact ⟨Nat.le_refl _, Nat.le_refl _⟩
  | delete | insert =>
      rw [List.length_cons]
      omega
  | replace =>
      rw [List.length_cons, List.length_cons]
      omega

/-- The recurrence is a lower bound of every alignment. -/
theorem distance_le (alignment : Alignment xs ys n) : distance xs ys ≤ n := by
  induction alignment with
  | nil => simp
  | @delete xs ys n x rest ih =>
      cases ys with
      | nil =>
          rw [distance_nil_right] at ih ⊢
          exact Nat.succ_le_succ ih
      | cons y ys =>
          rw [distance_cons_cons]
          exact Nat.le_trans (Nat.min_le_left _ _)
            (Nat.le_trans (Nat.min_le_left _ _) (Nat.succ_le_succ ih))
  | @insert xs ys n y rest ih =>
      cases xs with
      | nil =>
          rw [distance_nil_left] at ih ⊢
          exact Nat.succ_le_succ ih
      | cons x xs =>
          rw [distance_cons_cons]
          exact Nat.le_trans (Nat.min_le_left _ _)
            (Nat.le_trans (Nat.min_le_right _ _) (Nat.succ_le_succ ih))
  | replace x y _ ih =>
      rw [distance_cons_cons]
      exact Nat.le_trans (Nat.min_le_right _ _) (Nat.add_le_add_right ih _)

end Alignment

/-- Some alignment costs no more than the recurrence says. -/
theorem exists_alignment (xs ys : List α) : Alignment xs ys (distance xs ys) := by
  induction xs, ys using distance.induct with
  | case1 ys =>
      rw [distance_nil_left]
      exact .insertions ys
  | case2 x xs =>
      rw [distance_nil_right]
      exact .deletions _
  | case3 x xs y ys delete insert replace =>
      rw [distance_cons_cons]
      rcases Nat.le_total (distance xs (y :: ys) + 1) (distance (x :: xs) ys + 1) with less | more
      · rw [Nat.min_eq_left less]
        rcases Nat.le_total (distance xs (y :: ys) + 1) (distance xs ys + cost x y) with least | rest
        · rw [Nat.min_eq_left least]
          exact delete.delete x
        · rw [Nat.min_eq_right rest]
          exact replace.replace x y
      · rw [Nat.min_eq_right more]
        rcases Nat.le_total (distance (x :: xs) ys + 1) (distance xs ys + cost x y) with least | rest
        · rw [Nat.min_eq_left least]
          exact insert.insert y
        · rw [Nat.min_eq_right rest]
          exact replace.replace x y

theorem Alignment.symm (alignment : Alignment xs ys n) : Alignment ys xs n := by
  induction alignment with
  | nil => exact .nil
  | delete x _ ih => exact ih.insert x
  | insert y _ ih => exact ih.delete y
  | replace x y _ ih => exact cost_comm x y ▸ ih.replace y x

/-! ## The distance is least -/

theorem Alignment.edits (alignment : Alignment xs ys n) : Edits n xs ys := by
  induction alignment with
  | nil => exact .refl []
  | @delete xs ys n x _ ih =>
      rw [Nat.add_comm]
      exact (Edits.single (.delete [] x xs)).trans ih
  | @insert xs ys n y _ ih => exact ih.tail (.insert [] y ys)
  | @replace xs ys n x y _ ih =>
      unfold cost
      split_ifs with same
      · exact same ▸ ih.cons x
      · exact (ih.cons x).tail (.replace [] x y ys)

/-- Dropping or replacing an item costs at most one edit more. -/
theorem Alignment.change {a : α} (alignment : Alignment (a :: xs) ys n) :
    (∃ m ≤ n + 1, Alignment xs ys m) ∧ ∀ b, ∃ m ≤ n + 1, Alignment (b :: xs) ys m := by
  generalize whole : a :: xs = items at alignment
  induction alignment with
  | nil => nomatch whole
  | @delete items ys n x rest =>
      obtain ⟨-, rfl⟩ := List.cons.inj whole
      exact ⟨⟨n, by omega, rest⟩, fun b => ⟨n + 1, by omega, rest.delete b⟩⟩
  | @insert items ys n y rest ih =>
      obtain ⟨⟨m, bound, dropped⟩, replaced⟩ := ih whole
      refine ⟨⟨m + 1, by omega, dropped.insert y⟩, fun b => ?_⟩
      obtain ⟨m, bound, aligned⟩ := replaced b
      exact ⟨m + 1, by omega, aligned.insert y⟩
  | @replace items ys n x y rest =>
      obtain ⟨-, rfl⟩ := List.cons.inj whole
      refine ⟨⟨n + 1, by omega, rest.insert y⟩, fun b => ⟨n + cost b y, ?_, rest.replace b y⟩⟩
      have atMost := cost_le_one b y
      omega

/-- An edit changes the cost by at most one. -/
theorem Alignment.edit (alignment : Alignment xs ys n) (edit : Edit xs zs) :
    ∃ m ≤ n + 1, Alignment zs ys m := by
  cases edit with
  | insert front a back =>
      obtain ⟨ys₁, ys₂, n₁, n₂, rfl, rfl, first, second⟩ := alignment.split
      exact ⟨n₁ + (n₂ + 1), by omega, first.append (second.delete a)⟩
  | delete front a back =>
      obtain ⟨ys₁, ys₂, n₁, n₂, rfl, rfl, first, second⟩ := alignment.split
      obtain ⟨m, bound, dropped⟩ := second.change.1
      exact ⟨n₁ + m, by omega, first.append dropped⟩
  | replace front a b back =>
      obtain ⟨ys₁, ys₂, n₁, n₂, rfl, rfl, first, second⟩ := alignment.split
      obtain ⟨m, bound, replaced⟩ := second.change.2 b
      exact ⟨n₁ + m, by omega, first.append replaced⟩

theorem Edits.exists_alignment (edits : Edits n xs ys) : ∃ m ≤ n, Alignment xs ys m := by
  induction edits with
  | refl xs =>
      refine ⟨0, Nat.le_refl 0, ?_⟩
      induction xs with
      | nil => exact .nil
      | cons x xs ih => simpa [cost_self] using ih.replace x x
  | tail _ edit ih =>
      obtain ⟨m, bound, alignment⟩ := ih
      obtain ⟨k, more, edited⟩ := alignment.symm.edit edit
      exact ⟨k, by omega, edited.symm⟩

/-- The distance is the least number of edits. -/
theorem isLeast_distance (xs ys : List α) : IsLeast {n | Edits n xs ys} (distance xs ys) := by
  constructor
  · exact (exists_alignment xs ys).edits
  · intro n edits
    obtain ⟨m, bound, alignment⟩ := Edits.exists_alignment edits
    exact Nat.le_trans alignment.distance_le bound

/-! ## The distance table -/

theorem distance_reverse (xs ys : List α) : distance xs.reverse ys.reverse = distance xs ys := by
  apply Nat.le_antisymm
  · exact (exists_alignment xs ys).reverse.distance_le
  · have back := (exists_alignment xs.reverse ys.reverse).reverse.distance_le
    rwa [List.reverse_reverse, List.reverse_reverse] at back

/-- The recurrence at the last items. -/
theorem distance_concat_concat (xs ys : List α) (x y : α) : distance (xs ++ [x]) (ys ++ [y]) =
    min (min (distance xs (ys ++ [y]) + 1) (distance (xs ++ [x]) ys + 1))
      (distance xs ys + cost x y) := by
  rw [← distance_reverse, List.reverse_concat, List.reverse_concat, distance_cons_cons,
    ← List.reverse_concat, ← List.reverse_concat, distance_reverse, distance_reverse,
    distance_reverse]

/-- The lengths differ by at most the distance. -/
theorem length_le_add_distance (xs ys : List α) :
    xs.length ≤ ys.length + distance xs ys ∧ ys.length ≤ xs.length + distance xs ys :=
  (exists_alignment xs ys).length_le

/-- Each row of the table has an entry that is no larger than the distance of the lists. -/
theorem exists_prefix_distance_le (front back ys : List α) :
    ∃ ys₁, ys₁ <+: ys ∧ distance front ys₁ ≤ distance (front ++ back) ys := by
  obtain ⟨ys₁, ys₂, n₁, n₂, rfl, total, first, -⟩ := (exists_alignment (front ++ back) ys).split
  refine ⟨ys₁, List.prefix_append ys₁ ys₂, ?_⟩
  rw [total]
  exact Nat.le_trans first.distance_le (Nat.le_add_right _ _)

end Distance

end Rigor.Library.EditDistance
