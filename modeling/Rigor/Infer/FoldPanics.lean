import Rigor.Infer.Folding

/-!
# When `fold` panics

The guards of the arms rule out every panic but four: the remainder of the smallest
`i64` by `-1`, and three sums or products that only strings near the limit of
an allocation reach.
-/

namespace Rigor.Infer

open Rigor.Rust Rigor.Types

/-- A string of the source: no allocation is larger. -/
def Representable : Scalar → Prop
  | .str text => text.len < 2 ^ 63
  | _ => True

/-- Where the backward search starts. -/
def searchStart (len : Nat) : List Scalar → Option Int
  | [] => some len
  | [.int p] =>
      let p := if p.toInt < 0 then p.toInt + len else p.toInt
      if p < 0 then none else some (min p len)
  | _ => none

/-- The backward search whose start and needle do not add up in an `i64`. -/
def SearchOverflows (a : Text) (method : String) (args : List Scalar) : Prop :=
  (method = "rindex" ∨ method = "byterindex") ∧ a.isAscii = true ∧
    ∃ sub rest start, args = .str sub :: rest ∧ sub.isAscii = true ∧ sub.len ≤ a.len ∧
      searchStart a.len rest = some start ∧ 2 ^ 63 ≤ start + sub.len

/-- The calls on which `fold` panics. -/
def Overflows (receiver : Scalar) (method : String) (args : List Scalar) : Prop :=
  match receiver with
  | .int a => a = Int64.minValue ∧ method = "%" ∧ args = [.int (-1)]
  | .str a =>
      (method = "+" ∧ ∃ b, args = [.str b] ∧ 2 ^ 63 ≤ a.len + b.len) ∨
        (method = "*" ∧ ∃ n, args = [.int n] ∧ 0 ≤ n.toInt ∧ n.toInt ≤ 4096 ∧
          2 ^ 63 ≤ a.len * n.toInt) ∨
        SearchOverflows a method args
  | _ => False

/-- The call returns. -/
def Answers {α : Type} (run : Checked α) : Prop :=
  ∃ value, run = .ok value

@[simp]
theorem answers_ok {α : Type} (value : α) : Answers (.ok value : Checked α) :=
  ⟨value, rfl⟩

@[simp]
theorem answers_pure {α : Type} (value : α) : Answers (pure value : Checked α) :=
  ⟨value, rfl⟩

@[simp]
theorem not_answers_error {α : Type} (panic : Panic) : ¬ Answers (.error panic : Checked α) := by
  rintro ⟨value, same⟩
  exact absurd same (by simp)

/-- A call followed by a computation that cannot panic. -/
@[simp]
theorem answers_map {α β : Type} (run : Checked α) (f : α → β) :
    Answers (f <$> run) ↔ Answers run := by
  cases run with
  | ok value => exact iff_of_true ⟨f value, rfl⟩ ⟨value, rfl⟩
  | error panic => exact iff_of_false (not_answers_error panic) (not_answers_error panic)

theorem ok_bind {α β : Type} (value : α) (next : α → Checked β) :
    (Except.ok value >>= next) = next value :=
  rfl

/-! ## Integer -/

theorem answers_rem_two (a : Int64) : Answers (rem a 2) :=
  ⟨a % 2, rem_eq_ok (by decide) (Or.inr (by decide))⟩

/-- The remainder is at most the divisor away from zero. -/
theorem answers_rubyMod_iff {a b : Int64} (nonzero : b ≠ 0) :
    Answers (rubyMod a b) ↔ ¬ (a = Int64.minValue ∧ b = -1) := by
  by_cases overflows : a = Int64.minValue ∧ b = -1
  · obtain ⟨rfl, rfl⟩ := overflows
    exact iff_of_false (not_answers_error .arithmeticOverflow) (by simp)
  · refine iff_of_true ?_ overflows
    have taken : rem a b = .ok (a % b) := rem_eq_ok nonzero (by
      rw [← not_and_or]
      exact overflows)
    rw [rubyMod, taken]
    simp only [bind, Except.bind]
    split
    · rename_i adjusted
      have rBounds := toInt_bounds (a % b)
      have bBounds := toInt_bounds b
      have differ : ¬ ((a % b).toInt < 0 ↔ b.toInt < 0) := by
        simpa [Int64.lt_iff_toInt_lt] using adjusted.2
      have signs : -2 ^ 63 ≤ (a % b).toInt + b.toInt ∧ (a % b).toInt + b.toInt < 2 ^ 63 := by
        omega
      obtain ⟨sum, summed, -⟩ := add_eq_ok signs.1 signs.2
      exact ⟨sum, summed⟩
    · exact answers_ok _

theorem answers_remainder_iff (a b : Int64) :
    Answers (foldIntBinary a "%" b) ↔ ¬ (a = Int64.minValue ∧ b = -1) := by
  have unfolded : foldIntBinary a "%" b =
      if b = 0 then pure none else (fun r => some (Scalar.int r)) <$> rubyMod a b := rfl
  rw [unfolded]
  split
  · rename_i zero
    subst zero
    exact iff_of_true (answers_pure _) (by simp)
  · rename_i nonzero
    rw [answers_map, answers_rubyMod_iff nonzero]

theorem answers_foldIntBinary (a : Int64) {method : String} (b : Int64) (other : method ≠ "%") :
    Answers (foldIntBinary a method b) := by
  unfold foldIntBinary
  split
  case h_5 => exact absurd rfl other
  case h_11 =>
    split
    · rename_i inRange
      rw [shr_eq_ok inRange.1 inRange.2]
      exact answers_pure _
    · exact answers_pure _
  all_goals exact answers_pure _

theorem answers_foldInt_iff (a : Int64) (method : String) (args : List Scalar) :
    Answers (foldInt a method args) ↔
      ¬ (a = Int64.minValue ∧ method = "%" ∧ args = [.int (-1)]) := by
  unfold foldInt
  split
  case h_4 | h_5 =>
    obtain ⟨r, taken⟩ := answers_rem_two a
    rw [taken]
    exact iff_of_true (answers_pure _) (by simp)
  case h_8 =>
    rcases args with _ | ⟨b | _, _ | _⟩
    case cons.int.nil =>
      by_cases isMod : method = "%"
      · subst isMod
        dsimp only
        rw [answers_remainder_iff]
        simp
      · exact iff_of_true (answers_foldIntBinary a b isMod) (by simp [isMod])
    all_goals exact iff_of_true (answers_pure _) (by simp)
  all_goals exact iff_of_true (answers_pure _) (by simp)

/-! ## String -/

variable {a sub : Text}

theorem fromEnd_spec {n : Nat} (i : Int64) (small : n < 2 ^ 63) :
    ∃ j, fromEnd i (asI64 n) = .ok j ∧
      j.toInt = if i.toInt < 0 then i.toInt + n else i.toInt := by
  have bounds := toInt_bounds i
  have lenInt := toInt_asI64 small
  rw [fromEnd]
  by_cases negative : i.toInt < 0
  · have below : i < 0 := Int64.lt_iff_toInt_lt.mpr negative
    obtain ⟨j, summed, exact⟩ := add_eq_ok (a := i) (b := asI64 n) (by omega) (by omega)
    exact ⟨j, by rw [if_pos below, summed], by rw [if_pos negative, exact, lenInt]⟩
  · have above : ¬ i < 0 := fun below => negative (Int64.lt_iff_toInt_lt.mp below)
    exact ⟨i, by rw [if_neg above]; rfl, by rw [if_neg negative]⟩

theorem answers_slice (ascii : a.isAscii = true) {start stop : Nat} (ordered : start ≤ stop)
    (inside : stop ≤ a.len) : Answers (a.slice start stop) := by
  rw [Text.len_of_ascii ascii] at inside
  exact ⟨_, Text.slice_of_ascii ascii ordered inside⟩

theorem answers_substr (ascii : a.isAscii = true) (small : a.len < 2 ^ 63) (start count : Int64) :
    Answers (substr a start count) := by
  obtain ⟨j, wrapped, -⟩ := fromEnd_spec start small
  have lenInt := toInt_asI64 small
  simp only [substr, wrapped, bind, Except.bind]
  split
  · exact answers_pure _
  · rename_i inRange
    rw [not_or, not_or, Int64.lt_iff_toInt_lt, Int64.lt_iff_toInt_lt, gt_iff_lt,
      Int64.lt_iff_toInt_lt, lenInt] at inRange
    have zero : (0 : Int64).toInt = 0 := rfl
    have startIndex : asUsize j = j.toInt := asUsize_eq (by omega)
    have stopInt := toInt_min (saturatingAdd j count) (asI64 a.len)
    rw [toInt_saturatingAdd (by omega) (by omega), lenInt] at stopInt
    generalize min (saturatingAdd j count) (asI64 a.len) = stop at stopInt
    have stopIndex : asUsize stop = stop.toInt := asUsize_eq (by omega)
    obtain ⟨text, sliced⟩ : Answers (a.slice (asUsize j) (asUsize stop)) :=
      answers_slice ascii (by omega) (by omega)
    simp only [sliced]
    exact answers_pure _

theorem answers_charAt (ascii : a.isAscii = true) (small : a.len < 2 ^ 63) (i : Int64) :
    Answers (charAt a i) := by
  obtain ⟨j, wrapped, -⟩ := fromEnd_spec i small
  have lenInt := toInt_asI64 small
  simp only [charAt, wrapped, bind, Except.bind]
  split
  · rename_i inRange
    rw [Int64.le_iff_toInt_le, Int64.lt_iff_toInt_lt, lenInt] at inRange
    have index := asUsize_eq inRange.1
    have next : addUsize (asUsize j) 1 = .ok (asUsize j + 1) := if_pos (by omega)
    obtain ⟨text, sliced⟩ := answers_slice ascii (Nat.le_succ (asUsize j)) (by omega)
    simp only [next, sliced]
    exact answers_pure _
  · exact answers_pure _

theorem answers_getByte (small : a.len < 2 ^ 63) (i : Int64) :
    Answers (getByte a i) := by
  obtain ⟨j, wrapped, -⟩ := fromEnd_spec i small
  have lenInt := toInt_asI64 small
  simp only [getByte, wrapped, bind, Except.bind]
  split
  · rename_i inRange
    rw [Int64.le_iff_toInt_le, Int64.lt_iff_toInt_lt, lenInt] at inRange
    have index := asUsize_eq inRange.1
    have inside : asUsize j < (Text.bytes a).length := by
      have bound : asUsize j < a.len := by omega
      exact bound
    simp only [Text.byteAt, List.getElem?_eq_getElem inside]
    exact answers_pure _
  · exact answers_pure _

theorem answers_indexFrom (ascii : a.isAscii = true) (small : a.len < 2 ^ 63) (offset : Int64) :
    Answers (indexFrom a sub offset) := by
  obtain ⟨j, wrapped, -⟩ := fromEnd_spec offset small
  have lenInt := toInt_asI64 small
  simp only [indexFrom, wrapped, bind, Except.bind]
  split
  · rename_i inRange
    rw [Int64.le_iff_toInt_le, Int64.le_iff_toInt_le, lenInt] at inRange
    have index := asUsize_eq inRange.1
    have length := Text.len_of_ascii ascii
    have sliced : a.slice (asUsize j) a.len = .ok ((a.take a.len).drop (asUsize j)) :=
      Text.slice_of_ascii ascii (by omega) (Nat.le_of_eq length)
    simp only [sliced]
    split
    · rename_i p found
      have bound := Text.find_le found
      rw [Text.len_of_ascii (Text.isAscii_drop (Text.isAscii_take ascii _) _), List.length_drop,
        List.length_take] at bound
      have next : addUsize (asUsize j) p = .ok (asUsize j + p) := if_pos (by omega)
      simp only [next]
      exact answers_pure _
    · exact answers_pure _
  · exact answers_pure _

/-- The search panics when the end of a match at its start is no `i64`. -/
theorem answers_rindexUpTo_iff (ascii : a.isAscii = true) (small : a.len < 2 ^ 63)
    (subSmall : sub.len < 2 ^ 63) {start : Int64} (low : 0 ≤ start.toInt) :
    Answers (rindexUpTo a sub start) ↔ ¬ (sub.len ≤ a.len ∧ 2 ^ 63 ≤ start.toInt + sub.len) := by
  have lenInt := toInt_asI64 small
  have slenInt := toInt_asI64 subSmall
  simp only [rindexUpTo, bind, Except.bind]
  split
  · rename_i longer
    rw [gt_iff_lt, Int64.lt_iff_toInt_lt, lenInt, slenInt] at longer
    exact iff_of_true (answers_pure _) (by omega)
  · rename_i shorter
    rw [gt_iff_lt, Int64.lt_iff_toInt_lt, lenInt, slenInt] at shorter
    by_cases long : 2 ^ 63 ≤ start.toInt + sub.len
    · have overflow : add start (asI64 sub.len) = .error .arithmeticOverflow :=
        add_eq_error (by omega)
      rw [overflow]
      exact iff_of_false (not_answers_error _) (by omega)
    · obtain ⟨sum, summed, exact⟩ : ∃ sum, add start (asI64 sub.len) = .ok sum ∧
          sum.toInt = start.toInt + (asI64 sub.len).toInt := add_eq_ok (by omega) (by omega)
      refine iff_of_true ?_ (by omega)
      have stopInt := toInt_min sum (asI64 a.len)
      simp only [summed]
      generalize min sum (asI64 a.len) = stop at stopInt
      have stopIndex : asUsize stop = stop.toInt := asUsize_eq (by omega)
      obtain ⟨text, sliced⟩ : Answers (a.slice 0 (asUsize stop)) :=
        answers_slice ascii (Nat.zero_le _) (by omega)
      simp only [sliced]
      split <;> exact answers_pure _

theorem answers_rindex_iff (ascii : a.isAscii = true) (small : a.len < 2 ^ 63)
    (subSmall : sub.len < 2 ^ 63) (rest : List Scalar) :
    Answers (rindex a sub rest) ↔
      ¬ (sub.len ≤ a.len ∧ ∃ start, searchStart a.len rest = some start ∧
        2 ^ 63 ≤ start + sub.len) := by
  have lenInt := toInt_asI64 small
  unfold rindex
  split
  · have nonneg : 0 ≤ (asI64 a.len).toInt := by omega
    have searched := answers_rindexUpTo_iff ascii small subSmall nonneg
    simpa [searchStart, lenInt] using searched
  · rename_i p
    obtain ⟨j, wrapped, exact⟩ := fromEnd_spec p small
    simp only [wrapped, ok_bind, searchStart, ← exact]
    by_cases negative : j.toInt < 0
    · have below : j < 0 := Int64.lt_iff_toInt_lt.mpr negative
      rw [if_pos below]
      exact iff_of_true (answers_pure _) (by simp [negative])
    · have above : ¬ j < 0 := fun below => negative (Int64.lt_iff_toInt_lt.mp below)
      rw [if_neg above]
      have clamped := toInt_min j (asI64 a.len)
      have nonneg : 0 ≤ (min j (asI64 a.len)).toInt := by omega
      have searched := answers_rindexUpTo_iff ascii small subSmall nonneg
      rw [clamped, lenInt] at searched
      simpa [negative] using searched
  · refine iff_of_true (answers_pure _) ?_
    rintro ⟨-, start, starts, -⟩
    unfold searchStart at starts
    split at starts <;> simp_all

theorem answers_foldStrLookup_iff (small : a.len < 2 ^ 63) (method : String) (args : List Scalar)
    (representable : ∀ arg ∈ args, Representable arg) :
    Answers (foldStrLookup a method args) ↔ ¬ SearchOverflows a method args := by
  unfold foldStrLookup
  by_cases ascii : a.isAscii = true
  · rw [if_neg (not_not.mpr ascii)]
    split
    case h_1 | h_2 | h_3 =>
      exact iff_of_true (by simp [answers_charAt ascii small]) (by simp [SearchOverflows])
    case h_4 | h_5 | h_6 =>
      exact iff_of_true (by simp [answers_substr ascii small]) (by simp [SearchOverflows])
    case h_9 => exact iff_of_true (by simp [answers_getByte small]) (by simp [SearchOverflows])
    case h_12 sub rest | h_13 sub rest =>
      by_cases subAscii : sub.isAscii = true
      · have subSmall : sub.len < 2 ^ 63 := representable (.str sub) List.mem_cons_self
        rw [if_pos subAscii, answers_rindex_iff ascii small subSmall]
        simp [SearchOverflows, ascii, subAscii]
      · rw [if_neg subAscii]
        exact iff_of_true (answers_pure _) (by simp [SearchOverflows, subAscii])
    case h_14 | h_15 =>
      refine iff_of_true ?_ (by simp [SearchOverflows])
      split
      · simp [answers_indexFrom ascii small]
      · exact answers_pure _
    case h_16 noRindex noByterindex _ _ =>
      refine iff_of_true (answers_pure _) ?_
      rintro ⟨rfl | rfl, -, sub, rest, start, rfl, -⟩
      · exact noRindex sub rest rfl rfl
      · exact noByterindex sub rest rfl rfl
    all_goals exact iff_of_true (answers_pure _) (by simp [SearchOverflows])
  · rw [if_pos ascii]
    exact iff_of_true (answers_pure _) fun overflows => ascii overflows.2.1

theorem answers_concat_iff (a b : Text) : Answers (a.concat b) ↔ a.len + b.len < 2 ^ 63 := by
  rw [Text.concat]
  split
  · rename_i fits
    exact iff_of_true (answers_ok _) fits
  · rename_i long
    exact iff_of_false (not_answers_error _) long

theorem answers_repeat_iff (a : Text) (n : Nat) : Answers (a.repeat_ n) ↔ a.len * n < 2 ^ 63 := by
  rw [Text.repeat_]
  split
  · rename_i fits
    exact iff_of_true (answers_ok _) fits
  · rename_i long
    exact iff_of_false (not_answers_error _) long

theorem answers_foldStr_iff (small : a.len < 2 ^ 63) (method : String) (args : List Scalar)
    (representable : ∀ arg ∈ args, Representable arg) :
    Answers (foldStr a method args) ↔ ¬ Overflows (.str a) method args := by
  unfold foldStr
  split
  case h_7 b => simp [Overflows, SearchOverflows, answers_concat_iff]
  case h_8 n =>
    have zero : (0 : Int64).toInt = 0 := rfl
    have limit : (4096 : Int64).toInt = 4096 := rfl
    split
    · rename_i outside
      rw [gt_iff_lt, Int64.lt_iff_toInt_lt, Int64.lt_iff_toInt_lt] at outside
      refine iff_of_true (answers_pure _) ?_
      simp [Overflows, SearchOverflows]
      omega
    · rename_i inside
      rw [gt_iff_lt, Int64.lt_iff_toInt_lt, Int64.lt_iff_toInt_lt, not_or] at inside
      have count : asUsize n = n.toInt := asUsize_eq (by omega)
      have inRange : 0 ≤ n.toInt ∧ n.toInt ≤ 4096 := by omega
      have product : ((a.len * asUsize n : Nat) : Int) = a.len * n.toInt := by
        rw [Int.natCast_mul, count]
      simp [Overflows, SearchOverflows, answers_repeat_iff, inRange]
      omega
  case h_11 | h_12 | h_13 | h_14 | h_15 | h_16 | h_17 | h_18 =>
    rw [answers_foldStrLookup_iff small _ _ representable]
    simp [Overflows]
  case h_19 noRindex _ noByterindex _ _ _ _ _ _ noConcat noRepeat _ _ =>
    refine iff_of_true (answers_pure _) ?_
    rintro (⟨rfl, b, rfl, -⟩ | ⟨rfl, n, rfl, -⟩ | ⟨rfl | rfl, -⟩)
    · exact noConcat b rfl rfl
    · exact noRepeat n rfl rfl
    · exact noRindex rfl
    · exact noByterindex rfl
  all_goals exact iff_of_true (answers_pure _) (by simp [Overflows, SearchOverflows])

theorem answers_foldReceiver_iff {receiver : Scalar} {method : String} {args : List Scalar}
    (receiverRepresentable : Representable receiver)
    (representable : ∀ arg ∈ args, Representable arg) :
    Answers (foldReceiver receiver method args) ↔ ¬ Overflows receiver method args := by
  cases receiver with
  | int a => exact answers_foldInt_iff a method args
  | str a => exact answers_foldStr_iff receiverRepresentable method args representable
  | _ => exact iff_of_true (answers_pure _) not_false

/-- `fold` returns on every call but those that overflow. -/
theorem fold_returns_iff (receiver : Scalar) (method : String) (args : List Scalar)
    (receiverRepresentable : Representable receiver)
    (representable : ∀ arg ∈ args, Representable arg) :
    (∃ result, fold receiver method args = .ok result) ↔ ¬ Overflows receiver method args := by
  unfold fold
  split
  case h_1 =>
    refine iff_of_true (answers_pure _) ?_
    cases receiver <;> simp [Overflows, SearchOverflows]
  case h_2 arg =>
    have noOverflow (method : String) (equality : method = "==" ∨ method = "!=") :
        ¬ Overflows receiver method [arg] := by
      cases receiver <;> rcases equality with rfl | rfl <;> simp [Overflows, SearchOverflows]
    obtain ⟨result, folded⟩ := (answers_foldReceiver_iff receiverRepresentable
      representable).mpr (noOverflow "==" (Or.inl rfl))
    refine iff_of_true ?_ (noOverflow "!=" (Or.inr rfl))
    rw [folded, ok_bind]
    split <;> exact ⟨_, rfl⟩
  case h_3 => exact answers_foldReceiver_iff receiverRepresentable representable

theorem fold_returns_last :
    (∃ result, fold (.str ['a', 'b']) "[]" [.int (-1)] = .ok result) ↔
      ¬ Overflows (.str ['a', 'b']) "[]" [.int (-1)] := by
  have length : Text.len ['a', 'b'] = 2 := by decide
  have short : Representable (.str ['a', 'b']) := by simp [Representable, length]
  apply fold_returns_iff _ _ _ short
  simp [Representable]

/-- The divisor is not zero, but the remainder of the smallest integer by `-1`
overflows. -/
theorem fold_remainder_panics :
    ¬ ∃ result, fold (.int Int64.minValue) "%" [.int (-1)] = .ok result := by
  rintro ⟨result, returned⟩
  have panics : fold (.int Int64.minValue) "%" [.int (-1)] = .error .arithmeticOverflow := rfl
  rw [panics] at returned
  exact absurd returned (by simp)

end Rigor.Infer
