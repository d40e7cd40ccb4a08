import Mathlib.Data.List.DropRight
import Rigor.Library.Order

/-!
# Lists without an end

Lists compared as sequences that go on with zeros.  Lists that do not end in a zero are told apart.
-/

namespace Rigor.Library.Padded

open Rigor.Library.Order

universe u

variable {α : Type u} (zero : α)

/-- The first items of the sequence. -/
def firstItems (n : Nat) (xs : List α) : List α :=
  (List.range n).map fun i => xs.getD i zero

/-- The first place where the sequences differ decides. -/
def compareAt [DecidableEq α] (cmp : α → α → Ordering) (xs ys : List α) : List Nat → Ordering
  | [] => .eq
  | i :: rest =>
      if xs.getD i zero = ys.getD i zero then compareAt cmp xs ys rest
      else cmp (xs.getD i zero) (ys.getD i zero)

/-- The comparison up to the end of the longer list. -/
def comparePadded [DecidableEq α] (cmp : α → α → Ordering) (xs ys : List α) : Ordering :=
  compareAt zero cmp xs ys (List.range (max xs.length ys.length))

/-- No zero at the end. -/
def Trimmed (xs : List α) : Prop :=
  xs.getLast? ≠ some zero

variable {zero}

theorem firstItems_eq {n : Nat} {xs : List α} (long : xs.length ≤ n) :
    firstItems zero n xs = xs ++ List.replicate (n - xs.length) zero := by
  apply List.ext_getElem
  · simp [firstItems]
    omega
  · intro i inside _
    simp [firstItems, List.getElem_append]
    split <;> simp_all

/-- Zeros are all that sequences of trimmed lists can differ by. -/
theorem firstItems_injective {n : Nat} {xs ys : List α} (xsLong : xs.length ≤ n)
    (ysLong : ys.length ≤ n) (xsTrimmed : Trimmed zero xs) (ysTrimmed : Trimmed zero ys)
    (same : firstItems zero n xs = firstItems zero n ys) : xs = ys := by
  have ends : ∀ {xs ys : List α}, xs.length ≤ ys.length → ys.length ≤ n → Trimmed zero ys →
      firstItems zero n xs = firstItems zero n ys → xs = ys := by
    intro xs ys shorter long trimmed same
    rw [firstItems_eq (Nat.le_trans shorter long), firstItems_eq long] at same
    have first : xs ++ List.replicate (ys.length - xs.length) zero = ys := by
      have taken := congrArg (List.take ys.length) same
      rw [List.take_append_of_le_length (Nat.le_refl _), List.take_length, List.take_append,
        List.take_of_length_le shorter, List.take_replicate,
        Nat.min_eq_left (Nat.sub_le_sub_right long _)] at taken
      exact taken
    rcases Nat.eq_zero_or_pos (ys.length - xs.length) with none | some
    · rw [none, List.replicate_zero, List.append_nil] at first
      exact first
    · rcases Nat.exists_eq_add_of_lt some with ⟨m, more⟩
      apply absurd _ trimmed
      rw [← first, more, Nat.zero_add, List.replicate_succ', ← List.append_assoc,
        List.getLast?_concat]
  rcases Nat.le_total xs.length ys.length with shorter | longer
  · exact ends shorter ysLong ysTrimmed same
  · exact (ends longer xsLong xsTrimmed same.symm).symm

theorem Trimmed.append {xs ys : List α} (first : Trimmed zero xs) (second : Trimmed zero ys) :
    Trimmed zero (xs ++ ys) := by
  rw [Trimmed, List.getLast?_append]
  cases last : ys.getLast? with
  | none => exact first
  | some y =>
      intro same
      exact second (last.trans same)

section Compare

variable [DecidableEq α] {cmp : α → α → Ordering}

theorem trimmed_rdropWhile (xs : List α) : Trimmed zero (xs.rdropWhile (· = zero)) := by
  intro last
  rw [List.rdropWhile, List.getLast?_reverse] at last
  have outside := List.head?_dropWhile_not (fun x => decide (x = zero)) xs.reverse
  rw [last] at outside
  exact of_decide_eq_false outside rfl

theorem compareAt_eq (linear : LinearOn (fun _ => True) cmp) (xs ys : List α) (places : List Nat) :
    compareAt zero cmp xs ys places = List.compareLex cmp
      (places.map fun i => xs.getD i zero) (places.map fun i => ys.getD i zero) := by
  induction places with
  | nil => rfl
  | cons i rest ih =>
      rw [compareAt, List.map_cons, List.map_cons, List.compareLex_cons_cons]
      by_cases same : xs.getD i zero = ys.getD i zero
      · rw [if_pos same, ih, same, linear.self trivial]
        rfl
      · rw [if_neg same]
        cases decided : cmp (xs.getD i zero) (ys.getD i zero) with
        | eq => exact absurd ((linear.eq_iff trivial trivial).mp decided) same
        | lt => rfl
        | gt => rfl

/-- Any common length beyond both lists serves. -/
theorem comparePadded_eq (linear : LinearOn (fun _ => True) cmp) {n : Nat} {xs ys : List α}
    (xsLong : xs.length ≤ n) (ysLong : ys.length ≤ n) : comparePadded zero cmp xs ys =
      List.compareLex cmp (firstItems zero n xs) (firstItems zero n ys) := by
  have enough : max xs.length ys.length ≤ n := Nat.max_le.mpr ⟨xsLong, ysLong⟩
  have longer : ∀ {xs : List α} {m : Nat}, xs.length ≤ m → m ≤ n →
      firstItems zero n xs = firstItems zero m xs ++ List.replicate (n - m) zero := by
    intro xs m long more
    have sum : n - xs.length = (m - xs.length) + (n - m) := by omega
    rw [firstItems_eq long, firstItems_eq (Nat.le_trans long more), sum,
      List.replicate_add, List.append_assoc]
  have sameZeros : List.compareLex cmp (List.replicate (n - max xs.length ys.length) zero)
      (List.replicate (n - max xs.length ys.length) zero) = .eq :=
    linear.lex.self (fun _ _ => trivial)
  rw [comparePadded, compareAt_eq linear, longer (Nat.le_max_left _ _) enough,
    longer (Nat.le_max_right _ _) enough, compareLex_append (by simp [firstItems]), sameZeros,
    Ordering.then_eq]
  rfl

/-- On trimmed lists the comparison is a linear order. -/
theorem linearOn_comparePadded (linear : LinearOn (fun _ => True) cmp) :
    LinearOn (Trimmed zero) (comparePadded zero cmp) where
  eq_iff := by
    intro xs ys xsTrimmed ysTrimmed
    have xsLong := Nat.le_max_left xs.length ys.length
    have ysLong := Nat.le_max_right xs.length ys.length
    rw [comparePadded_eq linear xsLong ysLong, linear.lex.eq_iff (fun _ _ => trivial)
      (fun _ _ => trivial)]
    exact ⟨firstItems_injective xsLong ysLong xsTrimmed ysTrimmed, congrArg _⟩
  swap := by
    intro xs ys _ _
    have xsLong := Nat.le_max_left xs.length ys.length
    have ysLong := Nat.le_max_right xs.length ys.length
    rw [comparePadded_eq linear xsLong ysLong, comparePadded_eq linear ysLong xsLong]
    exact linear.lex.swap (fun _ _ => trivial) (fun _ _ => trivial)
  trans := by
    intro xs ys zs _ _ _ first second
    have xsLong : xs.length ≤ xs.length + ys.length + zs.length := by omega
    have ysLong : ys.length ≤ xs.length + ys.length + zs.length := by omega
    have zsLong : zs.length ≤ xs.length + ys.length + zs.length := by omega
    rw [comparePadded_eq linear xsLong ysLong] at first
    rw [comparePadded_eq linear ysLong zsLong] at second
    rw [comparePadded_eq linear xsLong zsLong]
    exact linear.lex.trans (fun _ _ => trivial) (fun _ _ => trivial) (fun _ _ => trivial) first second

/-- A list against one that goes on where it ends. -/
theorem comparePadded_append (linear : LinearOn (fun _ => True) cmp) (xs : List α) {y : α}
    (rest : List α) (nonzero : y ≠ zero) : comparePadded zero cmp (xs ++ y :: rest) xs = cmp y zero := by
  have long : xs.length ≤ (xs ++ y :: rest).length := by simp
  have more : (xs ++ y :: rest).length - xs.length = rest.length + 1 := by simp
  have sameStart : List.compareLex cmp xs xs = .eq := linear.lex.self (fun _ _ => trivial)
  rw [comparePadded_eq linear (Nat.le_refl _) long, firstItems_eq (Nat.le_refl _), Nat.sub_self,
    List.replicate_zero, List.append_nil, firstItems_eq long, more, List.replicate_succ,
    compareLex_append rfl, sameStart, List.compareLex_cons_cons]
  cases decided : cmp y zero with
  | eq => exact absurd ((linear.eq_iff trivial trivial).mp decided) nonzero
  | lt => rfl
  | gt => rfl

end Compare

end Rigor.Library.Padded
