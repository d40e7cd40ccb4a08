import Rigor.Text

/-!
# Printing `f64`

The `Display` and `LowerExp` forms of a float given by its bits.  Rust prints the shortest decimal
that reads back as the float, and of these the one closest to it.
-/

namespace Rigor.Rust.F64

/-- The sign bit. -/
def isNegative (bits : UInt64) : Bool :=
  2 ^ 63 ≤ bits.toNat

def exponentBits (bits : UInt64) : Nat :=
  bits.toNat / 2 ^ 52 % 2 ^ 11

def fractionBits (bits : UInt64) : Nat :=
  bits.toNat % 2 ^ 52

def isFinite (bits : UInt64) : Bool :=
  exponentBits bits < 2047

def isNan (bits : UInt64) : Bool :=
  exponentBits bits = 2047 ∧ fractionBits bits ≠ 0

def isInfinite (bits : UInt64) : Bool :=
  exponentBits bits = 2047 ∧ fractionBits bits = 0

/-- A finite float is its significand times a power of two, up to the sign. -/
def significand (bits : UInt64) : Nat :=
  if exponentBits bits = 0 then fractionBits bits else 2 ^ 52 + fractionBits bits

/-- The power of two is `2 ^ (exponent - 1075)`. -/
def exponent (bits : UInt64) : Nat :=
  max (exponentBits bits) 1

/-- `f == f.trunc()` for a finite float. -/
def isIntegral (bits : UInt64) : Bool :=
  significand bits * 2 ^ exponent bits % 2 ^ 1075 = 0

/-- The magnitude of an integral float. -/
def integralPart (bits : UInt64) : Nat :=
  significand bits * 2 ^ exponent bits / 2 ^ 1075

/-- A decimal `digits * 10 ^ exponent`. -/
structure Decimal where
  digits : Nat
  exponent : Int

/--
The decimal closest to a positive float with the last digit at `10 ^ (350 - place)`, if it reads
back as the float: it lies between the halfway points to the neighbours, or on one of them when
the significand is even.
-/
def decimalAt (bits : UInt64) (place : Nat) : Option Decimal :=
  let m := significand bits
  -- All in units of `2 ^ (exponent - 1077)`.
  let unit := 2 ^ exponent bits * 10 ^ place
  let step := 2 ^ 1077 * 10 ^ 350
  let below := if fractionBits bits = 0 ∧ 1 < exponentBits bits then 4 * m - 1 else 4 * m - 2
  let reads := fun digits : Nat =>
    if m % 2 = 0 then below * unit ≤ digits * step ∧ digits * step ≤ (4 * m + 2) * unit
    else below * unit < digits * step ∧ digits * step < (4 * m + 2) * unit
  let floor := 4 * m * unit / step
  let up := step ≤ 2 * (4 * m * unit % step)
  let first := if up then floor + 1 else floor
  let second := if up then floor else floor + 1
  let decimal := fun digits : Nat => Decimal.mk digits (350 - place)
  if first ≠ 0 ∧ reads first then some (decimal first)
  else if second ≠ 0 ∧ reads second then some (decimal second)
  else none

/-- The shortest decimal of a positive float. -/
def shortest (bits : UInt64) : Decimal :=
  ((List.range 700).findSome? (decimalAt bits)).getD ⟨0, 0⟩

/-- The exponent of the first digit. -/
def Decimal.leading (d : Decimal) : Int :=
  (Nat.toDigits 10 d.digits).length - 1 + d.exponent

def sign (bits : UInt64) : Text :=
  if isNegative bits then ['-'] else []

/-- The mantissa of `format!("{f:e}")`. -/
def Decimal.mantissa (d : Decimal) : Text :=
  match Nat.toDigits 10 d.digits with
  | first :: second :: rest => first :: '.' :: second :: rest
  | digits => digits

/-- `format!("{f:.1}")` of an integral float. -/
def withOneDecimal (bits : UInt64) : Text :=
  sign bits ++ Nat.toDigits 10 (integralPart bits) ++ ['.', '0']

/-- `f.to_string()` of a float that is not integral. -/
def toText (bits : UInt64) : Text :=
  let d := shortest bits
  let digits := Nat.toDigits 10 d.digits
  let point := digits.length + d.exponent
  if 0 < point then
    sign bits ++ digits.take point.toNat ++ '.' :: digits.drop point.toNat
  else sign bits ++ '0' :: '.' :: List.replicate (-point).toNat '0' ++ digits

end Rigor.Rust.F64
