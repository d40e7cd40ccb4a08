import Mathlib.Algebra.Group.Int.Defs
import Mathlib.Algebra.Group.Nat.Defs
import Mathlib.Tactic.Tauto

/-!
# `i64` and `usize` arithmetic

The operators of the source panic where their exact result does not exist or does
not fit; the `checked_*` methods answer `None` there.  Offsets of type `usize` are
natural numbers below `2^64`.
-/

namespace Rigor.Rust

/-- Why a call panics. -/
inductive Panic where
  | arithmeticOverflow
  | divisionByZero
  | outOfBounds
  | capacityOverflow
  deriving DecidableEq

/-- A computation that may panic. -/
abbrev Checked (α : Type) := Except Panic α

/-- An exact value as an `i64`, if it is one. -/
def narrow (value : Int) : Option Int64 :=
  if -2 ^ 63 ≤ value ∧ value < 2 ^ 63 then some (Int64.ofInt value) else none

def checkedAbs (a : Int64) : Option Int64 :=
  narrow a.toInt.natAbs

def checkedAdd (a b : Int64) : Option Int64 :=
  narrow (a.toInt + b.toInt)

def checkedSub (a b : Int64) : Option Int64 :=
  narrow (a.toInt - b.toInt)

def checkedMul (a b : Int64) : Option Int64 :=
  narrow (a.toInt * b.toInt)

/-- The Euclidean quotient: its remainder is never negative. -/
def checkedDivEuclid (a b : Int64) : Option Int64 :=
  if b = 0 then none else narrow (a.toInt / b.toInt)

def checkedPow (a : Int64) (exponent : Nat) : Option Int64 :=
  narrow (a.toInt ^ exponent)

/-- Guards the count only; the value is shifted with wrapping. -/
def checkedShl (a : Int64) (count : Nat) : Option Int64 :=
  if count < 64 then some (a <<< Int64.ofNat count) else none

def saturatingAdd (a b : Int64) : Int64 :=
  (checkedAdd a b).getD (if a < 0 then Int64.minValue else Int64.maxValue)

/-- `+` on `i64`. -/
def add (a b : Int64) : Checked Int64 :=
  match checkedAdd a b with
  | some sum => .ok sum
  | none => .error .arithmeticOverflow

/-- `%` on `i64`. -/
def rem (a b : Int64) : Checked Int64 :=
  if b = 0 then .error .divisionByZero
  else if a = Int64.minValue ∧ b = -1 then .error .arithmeticOverflow
  else .ok (a % b)

/-- `>>` on `i64`. -/
def shr (a count : Int64) : Checked Int64 :=
  if 0 ≤ count ∧ count < 64 then .ok (a >>> count) else .error .arithmeticOverflow

/-- `+` on `usize`. -/
def addUsize (a b : Nat) : Checked Nat :=
  if a + b < 2 ^ 64 then .ok (a + b) else .error .arithmeticOverflow

/-- `as usize`. -/
def asUsize (a : Int64) : Nat :=
  a.toUInt64.toNat

/-- A `usize` that is `as i64`. -/
def asI64 (n : Nat) : Int64 :=
  Int64.ofNat n

theorem toInt_bounds (a : Int64) : -2 ^ 63 ≤ a.toInt ∧ a.toInt < 2 ^ 63 :=
  ⟨a.le_toInt, a.toInt_lt⟩

theorem toInt_asI64 {n : Nat} (small : n < 2 ^ 63) : (asI64 n).toInt = n :=
  Int64.toInt_ofNat_of_lt small

theorem asUsize_eq {a : Int64} (nonneg : 0 ≤ a.toInt) : asUsize a = a.toInt := by
  have unsigned : 0 ≤ a := Int64.le_iff_toInt_le.mpr nonneg
  rw [asUsize, Int64.toNat_toUInt64_of_le unsigned, Int64.cast_toNatClampNeg a unsigned]

theorem narrow_eq_some {value : Int} (low : -2 ^ 63 ≤ value) (high : value < 2 ^ 63) :
    ∃ a, narrow value = some a ∧ a.toInt = value :=
  ⟨Int64.ofInt value, if_pos ⟨low, high⟩, Int64.toInt_ofInt_of_le low high⟩

theorem toInt_min (a b : Int64) : (min a b).toInt = min a.toInt b.toInt := by
  have unfolded : min a b = if a ≤ b then a else b := rfl
  rw [unfolded, Int.min_def]
  simp only [Int64.le_iff_toInt_le]
  split <;> rfl

theorem toInt_saturatingAdd {a b : Int64} (aNonneg : 0 ≤ a.toInt) (bNonneg : 0 ≤ b.toInt) :
    (saturatingAdd a b).toInt = min (a.toInt + b.toInt) (2 ^ 63 - 1) := by
  rw [saturatingAdd, checkedAdd]
  by_cases fits : a.toInt + b.toInt < 2 ^ 63
  · obtain ⟨sum, narrowed, exact⟩ := narrow_eq_some (by omega) fits
    rw [narrowed, Option.getD_some, exact]
    omega
  · have positive : ¬ a < 0 := by
      rw [Int64.lt_iff_toInt_lt]
      exact Int.not_lt.mpr aNonneg
    have noFit : narrow (a.toInt + b.toInt) = none := if_neg (by omega)
    rw [noFit, Option.getD_none, if_neg positive]
    have limit : Int64.maxValue.toInt = 2 ^ 63 - 1 := rfl
    omega

theorem add_eq_ok {a b : Int64} (low : -2 ^ 63 ≤ a.toInt + b.toInt)
    (high : a.toInt + b.toInt < 2 ^ 63) : ∃ sum, add a b = .ok sum ∧ sum.toInt = a.toInt + b.toInt := by
  obtain ⟨sum, narrowed, exact⟩ := narrow_eq_some low high
  refine ⟨sum, ?_, exact⟩
  rw [add, checkedAdd, narrowed]

theorem add_eq_error {a b : Int64} (high : 2 ^ 63 ≤ a.toInt + b.toInt) :
    add a b = .error .arithmeticOverflow := by
  rw [add, checkedAdd, narrow, if_neg (by omega)]

theorem rem_eq_ok {a b : Int64} (nonzero : b ≠ 0) (fits : a ≠ Int64.minValue ∨ b ≠ -1) :
    rem a b = .ok (a % b) := by
  rw [rem, if_neg nonzero, if_neg (by tauto)]

theorem shr_eq_ok {a count : Int64} (low : 0 ≤ count) (high : count < 64) :
    shr a count = .ok (a >>> count) :=
  if_pos ⟨low, high⟩

end Rigor.Rust
