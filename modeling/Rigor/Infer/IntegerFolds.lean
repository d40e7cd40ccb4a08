import Mathlib.Data.Rat.Floor
import Rigor.Infer.FoldPanics
import Rigor.Library.TwosComplement

/-!
# Integer folds against `Integer`

The folds of `fold_int` against the operations of `Integer` on integers without bounds.  The
quotient is the floor for positive divisors and exact quotients only, and a left shift is
exact only where no bit is lost.
-/

namespace Rigor.Infer

open Rigor.Rust Rigor.Types Rigor.Library.TwosComplement

/-- The integer is an `i64`. -/
def FitsI64 (value : Int) : Prop :=
  -2 ^ 63 ≤ value ∧ value < 2 ^ 63

theorem fitsI64_toInt (a : Int64) : FitsI64 a.toInt :=
  toInt_bounds a

theorem narrow_fits {value : Int} (fits : FitsI64 value) :
    ∃ a, narrow value = some a ∧ a.toInt = value :=
  narrow_eq_some fits.1 fits.2

theorem narrow_eq_none {value : Int} (large : ¬FitsI64 value) : narrow value = none :=
  if_neg large

theorem toInt_of_narrow {value : Int} {a : Int64} (narrowed : narrow value = some a) :
    a.toInt = value := by
  by_cases fits : FitsI64 value
  · rcases narrow_fits fits with ⟨b, found, exact⟩
    rw [narrowed, Option.some.injEq] at found
    rw [found, exact]
  · rw [narrow_eq_none fits] at narrowed
    nomatch narrowed

/-! ## Quotient and remainder -/

/-- The folded quotient and remainder are those of `Integer#/` and `Integer#%`. -/
def DivisionExact (a b : Int64) : Prop :=
  ∀ q r : Int64, fold (.int a) "/" [.int b] = .ok (some (.int q)) →
    fold (.int a) "%" [.int b] = .ok (some (.int r)) →
      q.toInt = ⌊(a.toInt : ℚ) / b.toInt⌋ ∧ (r.toInt = 0 ∨ r.toInt.sign = b.toInt.sign) ∧
        |r.toInt| < |b.toInt| ∧ a.toInt = q.toInt * b.toInt + r.toInt

theorem fold_div (a b : Int64) :
    fold (.int a) "/" [.int b] =
      .ok (if b = 0 then none else (checkedDivEuclid a b).map Scalar.int) :=
  rfl

theorem fold_rem (a b : Int64) :
    fold (.int a) "%" [.int b] =
      if b = 0 then .ok none else (rubyMod a b).map fun r => some (.int r) :=
  rfl

theorem toInt_ne_zero {b : Int64} (nonzero : b ≠ 0) : b.toInt ≠ 0 :=
  fun zero => nonzero (Int64.toInt_inj.mp zero)

/-- A remainder between zero and the divisor makes the quotient the floor. -/
theorem floor_div_eq {m n q r : Int} (decomposed : m = q * n + r)
    (inside : 0 ≤ r ∧ r < n ∨ n < r ∧ r ≤ 0) : ⌊(m : ℚ) / n⌋ = q := by
  rw [Int.floor_eq_iff]
  rcases inside with ⟨low, high⟩ | ⟨low, high⟩
  · have positive : (0 : ℚ) < n := Int.cast_pos.mpr (lt_of_le_of_lt low high)
    rw [le_div_iff₀ positive, div_lt_iff₀ positive]
    constructor
    · norm_cast
      linarith
    · norm_cast
      linarith
  · have negative : (n : ℚ) < 0 := Int.cast_lt_zero.mpr (lt_of_lt_of_le low high)
    rw [le_div_iff_of_neg negative, div_lt_iff_of_neg negative]
    constructor
    · norm_cast
      linarith
    · norm_cast
      linarith

theorem add_eq_ok_iff {a b sum : Int64} (added : add a b = .ok sum) :
    sum.toInt = a.toInt + b.toInt := by
  unfold add at added
  split at added
  · rename_i found narrowed
    rw [← Except.ok.inj added]
    exact toInt_of_narrow narrowed
  · nomatch added

/-- The remainder of `ruby_mod` lies between zero and the divisor. -/
theorem rubyMod_spec {a b r : Int64} (nonzero : b ≠ 0) (modulo : rubyMod a b = .ok r) :
    ∃ q : Int, a.toInt = q * b.toInt + r.toInt ∧
      (0 ≤ r.toInt ∧ r.toInt < b.toInt ∨ b.toInt < r.toInt ∧ r.toInt ≤ 0) := by
  have fits : ¬(a = Int64.minValue ∧ b = -1) := (answers_rubyMod_iff nonzero).mp ⟨r, modulo⟩
  rw [not_and_or] at fits
  have remainder : (a % b).toInt = a.toInt.tmod b.toInt := Int64.toInt_mod a b
  have decomposed := Int.tdiv_mul_add_tmod a.toInt b.toInt
  have small : (a % b).toInt.natAbs < b.toInt.natAbs := by
    rw [remainder, Int.natAbs_tmod]
    exact Nat.mod_lt _ (Int.natAbs_pos.mpr (toInt_ne_zero nonzero))
  rw [← remainder] at decomposed
  rw [rubyMod, rem_eq_ok nonzero fits, ok_bind] at modulo
  split at modulo
  · rename_i adjusted
    have differ : ¬((a % b).toInt < 0 ↔ b.toInt < 0) := by
      simpa [Int64.lt_iff_toInt_lt] using adjusted.2
    have sum := add_eq_ok_iff modulo
    have notZero := toInt_ne_zero adjusted.1
    refine ⟨a.toInt.tdiv b.toInt - 1, ?_, ?_⟩
    · rw [sum, Int.sub_mul]
      omega
    · omega
  · rename_i same
    obtain rfl : a % b = r := Except.ok.inj modulo
    have agree : (a % b).toInt = 0 ∨ ((a % b).toInt < 0 ↔ b.toInt < 0) := by
      by_cases zero : a % b = 0
      · rw [zero]
        exact .inl rfl
      · have kept := not_and.mp same zero
        right
        simpa [Int64.lt_iff_toInt_lt] using kept
    have notZero := toInt_ne_zero nonzero
    exact ⟨a.toInt.tdiv b.toInt, decomposed.symm, by omega⟩

/-- The quotient of a divisor other than `-1` fits. -/
theorem fitsI64_div {a b : Int} (fits : FitsI64 a) (nonzero : b ≠ 0) (notMinusOne : b ≠ -1) :
    FitsI64 (a / b) := by
  have decomposed := Int.mul_ediv_add_emod a b
  have low := Int.emod_nonneg a nonzero
  have high := Int.emod_lt_abs a nonzero
  rcases fits with ⟨aLow, aHigh⟩
  rcases lt_or_gt_of_ne nonzero with negative | positive
  · rw [abs_of_neg negative] at high
    constructor
    · by_contra below
      nlinarith
    · by_contra above
      have product : b * (a / b - 1) ≤ -2 * (a / b - 1) := by
        apply mul_le_mul_of_nonneg_right
        · omega
        · omega
      linarith
  · rw [abs_of_pos positive] at high
    constructor
    · by_contra below
      nlinarith
    · by_contra above
      nlinarith

/-- The Euclidean quotient with its remainder. -/
theorem fold_div_spec {a b q : Int64} (nonzero : b ≠ 0)
    (quotient : fold (.int a) "/" [.int b] = .ok (some (.int q))) :
    q.toInt = a.toInt / b.toInt := by
  rw [fold_div, if_neg nonzero, checkedDivEuclid, if_neg nonzero] at quotient
  rcases Option.map_eq_some_iff.mp (Except.ok.inj quotient) with ⟨found, narrowed, same⟩
  rw [← Scalar.int.inj same]
  exact toInt_of_narrow narrowed

theorem fold_rem_spec {a b r : Int64} (nonzero : b ≠ 0)
    (remainder : fold (.int a) "%" [.int b] = .ok (some (.int r))) : rubyMod a b = .ok r := by
  rw [fold_rem, if_neg nonzero] at remainder
  cases taken : rubyMod a b with
  | error panic =>
      rw [taken] at remainder
      nomatch remainder
  | ok found =>
      rw [taken] at remainder
      rw [Scalar.int.inj (Option.some.inj (Except.ok.inj remainder))]

/-- Divisors without a remainder aside, both folds have an answer. -/
theorem exists_folds {a b : Int64} (nonzero : b ≠ 0) (notMinusOne : b ≠ -1) :
    ∃ q r, fold (.int a) "/" [.int b] = .ok (some (.int q)) ∧
      fold (.int a) "%" [.int b] = .ok (some (.int r)) := by
  have other : b.toInt ≠ -1 := fun same => notMinusOne (Int64.toInt_inj.mp same)
  rcases narrow_fits (fitsI64_div (fitsI64_toInt a) (toInt_ne_zero nonzero) other) with
    ⟨q, narrowed, _⟩
  rcases (answers_rubyMod_iff nonzero).mpr fun extreme => notMinusOne extreme.2 with ⟨r, modulo⟩
  refine ⟨q, r, ?_, ?_⟩
  · rw [fold_div, if_neg nonzero, checkedDivEuclid, if_neg nonzero, narrowed]
    rfl
  · rw [fold_rem, if_neg nonzero, modulo]
    rfl

/-- The fold of a quotient and its remainder is that of Ruby exactly for positive divisors and for
divisors without a remainder. -/
theorem divisionExact_iff (a b : Int64) (nonzero : b ≠ 0) :
    DivisionExact a b ↔ 0 < b.toInt ∨ b.toInt ∣ a.toInt := by
  have notZero := toInt_ne_zero nonzero
  have euclid := Int.ediv_mul_add_emod a.toInt b.toInt
  have low := Int.emod_nonneg a.toInt notZero
  have high := Int.emod_lt_abs a.toInt notZero
  constructor
  · intro exact
    by_contra neither
    rw [not_or] at neither
    have notMinusOne : b ≠ -1 := by
      rintro rfl
      exact neither.2 (Int.neg_dvd.mpr (one_dvd a.toInt))
    rcases exists_folds (a := a) nonzero notMinusOne with ⟨q, r, quotient, remainder⟩
    have claimed := exact q r quotient remainder
    rcases rubyMod_spec nonzero (fold_rem_spec nonzero remainder) with ⟨k, decomposed, inside⟩
    have same : q.toInt = k := claimed.1.trans (floor_div_eq decomposed inside)
    rw [← same, fold_div_spec nonzero quotient] at decomposed
    -- The remainders agree, one is not positive and the other is not negative.
    have zero : a.toInt % b.toInt = 0 := by omega
    exact neither.2 (Int.dvd_of_emod_eq_zero zero)
  · intro benign q r quotient remainder
    have isEuclid := fold_div_spec nonzero quotient
    rcases rubyMod_spec nonzero (fold_rem_spec nonzero remainder) with ⟨k, decomposed, inside⟩
    have floored : ⌊(a.toInt : ℚ) / b.toInt⌋ = q.toInt := by
      rw [isEuclid]
      apply floor_div_eq euclid.symm
      rcases benign with positive | divides
      · rw [abs_of_pos positive] at high
        exact .inl ⟨low, high⟩
      · rw [Int.emod_eq_zero_of_dvd divides]
        omega
    have same : q.toInt = k := floored.symm.trans (floor_div_eq decomposed inside)
    refine ⟨floored.symm, ?_, ?_, by rw [same]; exact decomposed⟩
    · by_cases zero : r.toInt = 0
      · exact .inl zero
      · right
        rcases inside with ⟨rLow, rHigh⟩ | ⟨rLow, rHigh⟩
        · rw [Int.sign_eq_one_of_pos (by omega), Int.sign_eq_one_of_pos (by omega)]
        · rw [Int.sign_eq_neg_one_of_neg (by omega), Int.sign_eq_neg_one_of_neg (by omega)]
    · rw [abs_lt]
      rcases inside with ⟨rLow, rHigh⟩ | ⟨rLow, rHigh⟩
      · rw [abs_of_pos (by omega)]
        omega
      · rw [abs_of_neg (by omega)]
        omega

theorem divisionExact_seven : DivisionExact (-7) 2 :=
  (divisionExact_iff (-7) 2 (by decide)).mpr (.inl (by decide))

/-- `7 / -2` is folded to `-3`. -/
theorem not_divisionExact : ¬DivisionExact 7 (-2) := by
  intro holds
  have claimed := holds (-3) (-1) (by decide) (by decide)
  exact absurd claimed.2.2.2 (by decide)

/-! ## The other operations -/

/-- A shift of an integer: to the left by a count, to the right by a negative one. -/
def shiftInteger (a count : Int) : Int :=
  if 0 ≤ count then a * 2 ^ count.toNat else a / 2 ^ (-count).toNat

/-- The result of the operation on integers without bounds, if it is one. -/
def integerResult (a : Int) (method : String) (args : List Scalar) : Option Int :=
  match method, args with
  | "abs", [] => some |a|
  | "succ", [] => some (a + 1)
  | "pred", [] => some (a - 1)
  | "+", [.int b] => some (a + b.toInt)
  | "-", [.int b] => some (a - b.toInt)
  | "*", [.int b] => some (a * b.toInt)
  | "**", [.int b] => if b.toInt < 0 then none else some (a ^ b.toInt.toNat)
  | "&", [.int b] => some (Int.land a b.toInt)
  | "|", [.int b] => some (Int.lor a b.toInt)
  | "^", [.int b] => some (Int.xor a b.toInt)
  | "<<", [.int b] => some (shiftInteger a b.toInt)
  | ">>", [.int b] => some (shiftInteger a (-b.toInt))
  | _, _ => none

/-- A folded integer is the exact result, and a result that does not fit is declined. -/
def FoldsTo (outcome : Folded) (result : Option Int) : Prop :=
  (∀ v, outcome = .ok (some (.int v)) → result = some v.toInt) ∧
    ∀ exact, result = some exact → ¬FitsI64 exact → outcome = .ok none

namespace FoldsTo

theorem declined (result : Option Int) : FoldsTo (.ok none) result :=
  ⟨nofun, fun _ _ _ => rfl⟩

theorem value (v : Int64) : FoldsTo (.ok (some (.int v))) (some v.toInt) := by
  constructor
  · intro other same
    rw [Scalar.int.inj (Option.some.inj (Except.ok.inj same))]
  · intro exact same large
    rw [← Option.some.inj same] at large
    exact absurd (fitsI64_toInt v) large

theorem narrowed (exact : Int) :
    FoldsTo (.ok ((narrow exact).map Scalar.int)) (some exact) := by
  by_cases fits : FitsI64 exact
  · rcases narrow_fits fits with ⟨v, found, same⟩
    rw [found, ← same]
    exact value v
  · rw [narrow_eq_none fits]
    exact declined _

theorem other {outcome : Folded} (noInt : ∀ v, outcome ≠ .ok (some (.int v))) :
    FoldsTo outcome none :=
  ⟨fun v same => absurd same (noInt v), nofun⟩

end FoldsTo

/-- A count in range is the count that the word shifts by. -/
theorem toNat_count {b : Int64} (low : 0 ≤ b.toInt) (high : b.toInt < 64) :
    (b.toBitVec.smod 64).toNat = b.toInt.toNat := by
  have reduced : (b.toBitVec.smod 64).toInt = b.toInt := by
    rw [BitVec.toInt_smod, Int64.toInt_toBitVec, Int.fmod_eq_of_lt low]
    exact high
  have spelled := BitVec.toInt_eq_toNat_cond (b.toBitVec.smod 64)
  have bound := (b.toBitVec.smod 64).isLt
  rw [reduced] at spelled
  split at spelled <;> omega

theorem toInt_shl (a : Int64) {b : Int64} (low : 0 ≤ b.toInt) (high : b.toInt < 64) :
    (a <<< Int64.ofNat (asUsize b)).toInt = (a.toInt * 2 ^ b.toInt.toNat).bmod (2 ^ 64) := by
  have count : Int64.ofNat (asUsize b) = b := by
    have index := asUsize_eq low
    have small : asUsize b < 2 ^ 63 := by omega
    exact Int64.toInt_inj.mp ((toInt_asI64 small).trans index)
  rw [count, ← Int64.toInt_toBitVec, Int64.toBitVec_shiftLeft, BitVec.shiftLeft_eq',
    toNat_count low high, toInt_shiftLeft, Int64.toInt_toBitVec]

theorem toInt_shr (a : Int64) {b : Int64} (low : 0 ≤ b.toInt) (high : b.toInt < 64) :
    (a >>> b).toInt = a.toInt / 2 ^ b.toInt.toNat := by
  rw [← Int64.toInt_toBitVec, Int64.toBitVec_shiftRight, BitVec.toInt_sshiftRight',
    Int.shiftRight_eq_div_pow, toNat_count low high, Int64.toInt_toBitVec]
  norm_cast

theorem bmod_fits {value : Int} (fits : FitsI64 value) : value.bmod (2 ^ 64) = value := by
  apply Int.bmod_eq_of_le
  · exact fits.1
  · exact fits.2

/-- A left shift loses bits. -/
def ShiftLosesBits (a : Int64) (method : String) (args : List Scalar) : Prop :=
  method = "<<" ∧ ∃ b : Int64, args = [.int b] ∧ 0 ≤ b.toInt ∧ b.toInt < 64 ∧
    ¬FitsI64 (a.toInt * 2 ^ b.toInt.toNat)

theorem foldsTo_shl_iff (a b : Int64) :
    FoldsTo (fold (.int a) "<<" [.int b]) (integerResult a.toInt "<<" [.int b]) ↔
      ¬ShiftLosesBits a "<<" [.int b] := by
  have unfolded : fold (.int a) "<<" [.int b] =
      .ok (if 0 ≤ b ∧ b < 64 then (checkedShl a (asUsize b)).map Scalar.int else none) := rfl
  have result : integerResult a.toInt "<<" [.int b] = some (shiftInteger a.toInt b.toInt) := rfl
  rw [unfolded, result]
  by_cases inRange : 0 ≤ b.toInt ∧ b.toInt < 64
  · have guarded : 0 ≤ b ∧ b < 64 := by
      rw [Int64.le_iff_toInt_le, Int64.lt_iff_toInt_lt]
      exact inRange
    have small : asUsize b < 64 := by
      have index := asUsize_eq inRange.1
      omega
    have shifted := toInt_shl a inRange.1 inRange.2
    rw [if_pos guarded, checkedShl, if_pos small, shiftInteger, if_pos inRange.1]
    constructor
    · rintro exact ⟨_, c, same, _, _, lost⟩
      obtain rfl : b = c := by simpa using same
      nomatch exact.2 _ rfl lost
    · intro kept
      have fits : FitsI64 (a.toInt * 2 ^ b.toInt.toNat) := by
        by_contra lost
        exact kept ⟨rfl, b, rfl, inRange.1, inRange.2, lost⟩
      rw [bmod_fits fits] at shifted
      rw [← shifted]
      exact .value _
  · have outside : ¬(0 ≤ b ∧ b < 64) := by
      rw [Int64.le_iff_toInt_le, Int64.lt_iff_toInt_lt]
      exact inRange
    rw [if_neg outside]
    apply iff_of_true (.declined _)
    rintro ⟨_, c, same, low, high, _⟩
    obtain rfl : b = c := by simpa using same
    exact inRange ⟨low, high⟩

theorem foldsTo_shr (a b : Int64) :
    FoldsTo (foldIntBinary a ">>" b) (some (shiftInteger a.toInt (-b.toInt))) := by
  have unfolded : foldIntBinary a ">>" b =
      if 0 ≤ b ∧ b < 64 then (shr a b).map (fun v => some (Scalar.int v)) else .ok none := rfl
  rw [unfolded]
  split
  · rename_i inRange
    rw [shr_eq_ok inRange.1 inRange.2]
    rw [Int64.le_iff_toInt_le, Int64.lt_iff_toInt_lt] at inRange
    have shifted : shiftInteger a.toInt (-b.toInt) = (a >>> b).toInt := by
      rw [toInt_shr a inRange.1 inRange.2, shiftInteger]
      split
      · have zero : b.toInt = 0 := le_antisymm (by omega) inRange.1
        simp [zero]
      · rw [neg_neg]
    rw [shifted]
    exact .value _
  · exact .declined _

theorem foldsTo_pow (a b : Int64) :
    FoldsTo (foldIntBinary a "**" b)
      (if b.toInt < 0 then none else some (a.toInt ^ b.toInt.toNat)) := by
  have unfolded : foldIntBinary a "**" b =
      .ok (if b < 0 ∨ b > 4294967295 then none
        else (checkedPow a (asUsize b)).map Scalar.int) := rfl
  rw [unfolded]
  split
  · exact .declined _
  · rename_i inRange
    rw [not_or, Int64.lt_iff_toInt_lt] at inRange
    have nonneg : ¬b.toInt < 0 := inRange.1
    have index : asUsize b = b.toInt.toNat := by
      have exact := asUsize_eq (Int.not_lt.mp nonneg)
      omega
    rw [if_neg nonneg, checkedPow, index]
    exact .narrowed _

theorem foldsTo_foldIntBinary {a b : Int64} {method : String} (notDiv : method ≠ "/")
    (notRem : method ≠ "%") (notShl : method ≠ "<<") :
    FoldsTo (foldIntBinary a method b) (integerResult a.toInt method [.int b]) := by
  unfold foldIntBinary
  split
  case h_1 => exact .narrowed _
  case h_2 => exact .narrowed _
  case h_3 => exact .narrowed _
  case h_4 => exact absurd rfl notDiv
  case h_5 => exact absurd rfl notRem
  case h_6 => exact foldsTo_pow a b
  case h_7 =>
    have exact := FoldsTo.value (a &&& b)
    rwa [← Int64.toInt_toBitVec, Int64.toBitVec_and, toInt_and] at exact
  case h_8 =>
    have exact := FoldsTo.value (a ||| b)
    rwa [← Int64.toInt_toBitVec, Int64.toBitVec_or, toInt_or] at exact
  case h_9 =>
    have exact := FoldsTo.value (a ^^^ b)
    rwa [← Int64.toInt_toBitVec, Int64.toBitVec_xor, toInt_xor] at exact
  case h_10 => exact absurd rfl notShl
  case h_11 => exact foldsTo_shr a b
  case h_17 => exact .declined _
  all_goals exact .other (by rintro v ⟨⟩)

theorem foldsTo_foldInt {a : Int64} {method : String} {args : List Scalar}
    (notDiv : method ≠ "/") (notRem : method ≠ "%")
    (notShl : ∀ b, args = [.int b] → method ≠ "<<") :
    FoldsTo (foldInt a method args) (integerResult a.toInt method args) := by
  unfold foldInt
  split
  case h_1 =>
    have result : integerResult a.toInt "abs" [] = some (a.toInt.natAbs : Int) :=
      congrArg some (Int.abs_eq_natAbs a.toInt)
    rw [result]
    exact .narrowed _
  case h_2 => exact .narrowed _
  case h_3 => exact .narrowed _
  case h_4 =>
    apply FoldsTo.other
    rcases answers_rem_two a with ⟨r, taken⟩
    rw [taken]
    rintro v ⟨⟩
  case h_5 =>
    apply FoldsTo.other
    rcases answers_rem_two a with ⟨r, taken⟩
    rw [taken]
    rintro v ⟨⟩
  case h_6 => exact .other (by rintro v ⟨⟩)
  case h_7 => exact .other (by rintro v ⟨⟩)
  case h_8 =>
    split
    · exact foldsTo_foldIntBinary notDiv notRem (notShl _ rfl)
    · exact .declined _

/-- The fold of an `Integer` method other than `/` and `%` is exact unless a left shift loses
bits. -/
theorem foldsTo_iff (a : Int64) (method : String) (args : List Scalar)
    (others : method ≠ "/" ∧ method ≠ "%") :
    FoldsTo (fold (.int a) method args) (integerResult a.toInt method args) ↔
      ¬ShiftLosesBits a method args := by
  by_cases isShl : method = "<<" ∧ ∃ b, args = [.int b]
  · rcases isShl with ⟨rfl, b, rfl⟩
    exact foldsTo_shl_iff a b
  · have notShl : ∀ b, args = [.int b] → method ≠ "<<" :=
      fun b isBinary shl => isShl ⟨shl, b, isBinary⟩
    apply iff_of_true
    · unfold fold
      split
      case h_1 => exact .other (by rintro v ⟨⟩)
      case h_2 arg =>
        have noResult : integerResult a.toInt "!=" [arg] = none := by cases arg <;> rfl
        rw [noResult]
        apply FoldsTo.other
        intro v
        cases foldReceiver (.int a) "==" [arg] with
        | error panic => exact nofun
        | ok result =>
            rw [ok_bind]
            split
            · exact nofun
            · exact nofun
      case h_3 => exact foldsTo_foldInt others.1 others.2 notShl
    · rintro ⟨shl, b, isBinary, _⟩
      exact isShl ⟨shl, b, isBinary⟩

theorem foldsTo_iff_power :
    FoldsTo (fold (.int 2) "**" [.int 63]) (integerResult 2 "**" [.int 63]) ↔
      ¬ShiftLosesBits 2 "**" [.int 63] :=
  foldsTo_iff 2 "**" [.int 63] ⟨by decide, by decide⟩

/-- `1 << 63` is folded to the smallest `i64`. -/
theorem not_foldsTo_shl :
    ¬FoldsTo (fold (.int 1) "<<" [.int 63]) (integerResult 1 "<<" [.int 63]) := by
  intro holds
  have claimed := holds.1 Int64.minValue (by decide)
  exact absurd claimed (by decide)

end Rigor.Infer
