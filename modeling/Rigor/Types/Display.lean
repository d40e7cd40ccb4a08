import Rigor.Rust.FloatText
import Rigor.Types.Ty

/-!
# The display of scalars

`scalar_inspect` spells a constant as Ruby's `inspect` does.
-/

namespace Rigor.Types

open Rigor.Rust

/-! ## Floats -/

/-- At least two decimal digits, `{:02}`. -/
def twoDigits (n : Nat) : Text :=
  if n < 10 then '0' :: Nat.toDigits 10 n else Nat.toDigits 10 n

/-- `ruby_float_to_s`; the float is given by its bits. -/
def rubyFloatToS (f : UInt64) : Text :=
  if F64.isNan f then "NaN".toList
  else if F64.isInfinite f then
    if F64.isNegative f then "-Infinity".toList else "Infinity".toList
  else if F64.significand f = 0 then F64.withOneDecimal f
  else
    let sci := F64.shortest f
    let exp10 := sci.leading
    let useExp := exp10 ≤ -5 ∨ exp10 ≥ 16 ∨ (exp10 = 15 ∧ F64.isIntegral f)
    if ¬useExp then
      if F64.isIntegral f then F64.withOneDecimal f else F64.toText f
    else
      let mantissa :=
        if '.' ∈ sci.mantissa then sci.mantissa else sci.mantissa ++ ['.', '0']
      let expSign := if exp10 < 0 then '-' else '+'
      F64.sign f ++ mantissa ++ 'e' :: expSign :: twoDigits exp10.natAbs

/-! ## Symbols and strings -/

/-- `OPERATOR_SYMNAMES`. -/
def operatorSymnames : List Text :=
  ["+", "-", "*", "**", "/", "%", "==", "===", "=~", "!~", "!=", "<", "<=", "<=>", ">", ">=",
    "<<", ">>", "&", "|", "^", "~", "+@", "-@", "[]", "[]=", "`", "!"].map String.toList

def identchar (c : Char) : Bool :=
  c.isAlphanum || c = '_'

/-- `GLOBAL_NAME_PUNCT`. -/
def globalNamePunct : List Char :=
  ['~', '*', '$', '?', '!', '@', '/', '\\', ';', ',', '.', '=', ':', '<', '>', '"', '&', '`',
    '\'', '+', '0']

/-- `special_global_tail`. -/
def specialGlobalTail : Text → Bool
  | [] => false
  | first :: rest =>
      if first ∈ globalNamePunct then rest.isEmpty
      else if first = '-' then
        match rest with
        | [c] => identchar c
        | _ => false
      else first.isDigit && rest.all Char.isDigit

/-- `ident_tail`. -/
def identTail (name : Text) (allowSigil : Bool) : Bool :=
  match name with
  | [] => false
  | first :: rest =>
      if ¬(first = '_' ∨ first.isAlpha) then false
      else if rest.all identchar then true
      else if ¬allowSigil then false
      else
        match name.getLast? with
        | none => false
        | some last => last ∈ ['?', '!', '='] && name.dropLast.all identchar

/-- `bare_symname`. -/
def bareSymname (name : Text) : Bool :=
  if name ∈ operatorSymnames then true
  else
    match name with
    | '$' :: tail => specialGlobalTail tail || identTail tail false
    | '@' :: '@' :: tail => identTail tail false
    | '@' :: tail => identTail tail false
    | _ :: _ => identTail name true
    | [] => false

/-- `{:02X}` of a byte. -/
def hexByte (n : Nat) : Text :=
  [(Nat.digitChar (n / 16)).toUpper, (Nat.digitChar (n % 16)).toUpper]

/-- The escape of one character; `guarded` when the next one would start an interpolation. -/
def escapeChar (guarded : Bool) (c : Char) : Text :=
  if c = '"' then ['\\', '"']
  else if c = '\\' then ['\\', '\\']
  else if c = '\n' then ['\\', 'n']
  else if c = '\t' then ['\\', 't']
  else if c = '\r' then ['\\', 'r']
  else if c.toNat = 0 then ['\\', '0']
  else if c.toNat = 0x07 then ['\\', 'a']
  else if c.toNat = 0x08 then ['\\', 'b']
  else if c.toNat = 0x0c then ['\\', 'f']
  else if c.toNat = 0x0b then ['\\', 'v']
  else if c.toNat = 0x1b then ['\\', 'e']
  else if c = '#' then if guarded then ['\\', '#'] else ['#']
  else if c.toNat < 0x20 ∨ c.toNat = 0x7f then '\\' :: 'x' :: hexByte c.toNat
  else [c]

/-- `matches!(chars.peek(), Some('{') | Some('@') | Some('$'))`. -/
def opensInterpolation : Text → Bool
  | c :: _ => c = '\x7b' || c = '@' || c = '$'
  | [] => false

/-- The loop of `ruby_inspect_dq`. -/
def escapeAll : Text → Text
  | [] => []
  | c :: rest => escapeChar (opensInterpolation rest) c ++ escapeAll rest

/-- `ruby_inspect_dq`. -/
def rubyInspectDq (s : Text) : Text :=
  '"' :: escapeAll s ++ ['"']

/-- `symbol_inspect`. -/
def symbolInspect (name : Text) : Text :=
  if bareSymname name then ':' :: name else ':' :: rubyInspectDq name

/-- `scalar_inspect`. -/
def scalarInspect : Scalar → Text
  | .str v => rubyInspectDq v
  | .sym v => symbolInspect v
  | .int n => (toString n.toInt).toList
  | .bigInt digits => digits
  | .float f => rubyFloatToS f
  | .bool b => (toString b).toList
  | .nil => "nil".toList

end Rigor.Types
