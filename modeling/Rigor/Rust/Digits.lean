import Rigor.Text

/-!
# Digits of a radix
-/

namespace Rigor.Rust

/-- `char::to_digit`. -/
def toDigit (radix : Nat) (c : Char) : Option Nat :=
  let value :=
    if c.isDigit then some (c.toNat - '0'.toNat)
    else if c.isLower then some (c.toNat - 'a'.toNat + 10)
    else if c.isUpper then some (c.toNat - 'A'.toNat + 10)
    else none
  value.filter fun d => d < radix

/-- Digits read into an unsigned integer of some bits. -/
def foldDigits (bits radix : Nat) : Nat → Text → Option Nat
  | acc, [] => some acc
  | acc, c :: digits =>
      match toDigit radix c with
      | none => none
      | some d =>
          if acc * radix + d < 2 ^ bits then foldDigits bits radix (acc * radix + d) digits
          else none

/-- `from_str_radix` of the unsigned integers: a plus sign is accepted, a sign alone is not. -/
def fromStrRadix (bits radix : Nat) : Text → Option Nat
  | [] => none
  | ['+'] => none
  | ['-'] => none
  | '+' :: digits => foldDigits bits radix 0 digits
  | digits => foldDigits bits radix 0 digits

theorem toDigit_lt {radix : Nat} {c : Char} {d : Nat} (digit : toDigit radix c = some d) :
    d < radix := by
  rw [toDigit, Option.filter_eq_some_iff] at digit
  exact decide_eq_true_eq.mp digit.2

/-! ### The ranges of the ASCII classes -/

theorem isDigit_iff {c : Char} : c.isDigit = true ↔ 48 ≤ c.toNat ∧ c.toNat ≤ 57 :=
  Bool.and_eq_true_iff.trans
    (and_congr (decide_eq_true_iff.trans UInt32.le_iff_toNat_le)
      (decide_eq_true_iff.trans UInt32.le_iff_toNat_le))

theorem isLower_iff {c : Char} : c.isLower = true ↔ 97 ≤ c.toNat ∧ c.toNat ≤ 122 :=
  Bool.and_eq_true_iff.trans
    (and_congr (decide_eq_true_iff.trans UInt32.le_iff_toNat_le)
      (decide_eq_true_iff.trans UInt32.le_iff_toNat_le))

theorem isUpper_iff {c : Char} : c.isUpper = true ↔ 65 ≤ c.toNat ∧ c.toNat ≤ 90 :=
  decide_eq_true_iff.trans
    (and_congr UInt32.le_iff_toNat_le UInt32.le_iff_toNat_le)

theorem isAlpha_iff {c : Char} : c.isAlpha = true ↔ c.isUpper = true ∨ c.isLower = true :=
  Bool.or_eq_true_iff

theorem isAlphanum_iff {c : Char} : c.isAlphanum = true ↔ c.isAlpha = true ∨ c.isDigit = true :=
  Bool.or_eq_true_iff

theorem ascii_of_isDigit {c : Char} (decimal : c.isDigit = true) : c.val < 128 :=
  Nat.lt_of_le_of_lt (isDigit_iff.mp decimal).2 (by decide)

theorem ascii_of_isLower {c : Char} (lower : c.isLower = true) : c.val < 128 :=
  Nat.lt_of_le_of_lt (isLower_iff.mp lower).2 (by decide)

theorem ascii_of_isUpper {c : Char} (upper : c.isUpper = true) : c.val < 128 :=
  Nat.lt_of_le_of_lt (isUpper_iff.mp upper).2 (by decide)

/-- A digit is an ASCII character. -/
theorem ascii_of_toDigit {radix : Nat} {c : Char} {d : Nat} (digit : toDigit radix c = some d) :
    c.val < 128 := by
  rw [toDigit, Option.filter_eq_some_iff] at digit
  by_cases decimal : c.isDigit
  · exact ascii_of_isDigit decimal
  · by_cases lower : c.isLower
    · exact ascii_of_isLower lower
    · by_cases upper : c.isUpper
      · exact ascii_of_isUpper upper
      · simp [decimal, lower, upper] at digit

end Rigor.Rust
