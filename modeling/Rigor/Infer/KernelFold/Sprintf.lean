import Rigor.Infer.Folding
import Rigor.Types.Display

/-!
# `sprintf`

The interpreter of `Kernel#format` over a constant template.  `none` declines; a panic of the
source is an error.  Positions are indices into the characters of the template, and one iteration
of the loop is one step.
-/

namespace Rigor.Infer.KernelFold

open Rigor.Rust Rigor.Types

/-- `STRING_FOLD_BYTE_LIMIT`. -/
def stringFoldByteLimit : Nat :=
  4096

/-! ## Arguments -/

/-- `ruby_string_of`. -/
def rubyStringOf : Scalar → Text
  | .int n => (toString n.toInt).toList
  | .bigInt d => d
  | .str v => v
  | .sym v => v
  | .bool b => (toString b).toList
  | .nil => []
  | .float f => rubyFloatToS f

/-- `is_simple_string`. -/
def isSimpleString (s : Text) : Bool :=
  s.all fun c => (0x21 ≤ c.toNat && c.toNat ≤ 0x7e && c ≠ '#') || c = ' '

/-- `is_simple_symbol`. -/
def isSimpleSymbol (s : Text) : Bool :=
  s.head?.any (fun c => c.isAlpha || c = '_') && s.all fun c => c.isAlphanum || c = '_'

/-- `format!("{v:?}")` of a simple string. -/
def debugSimple (s : Text) : Text :=
  '"' :: (s.flatMap fun c => if c = '"' ∨ c = '\\' then ['\\', c] else [c]) ++ ['"']

/-- `ruby_inspect`. -/
def rubyInspect : Scalar → Option Text
  | .int n => some (toString n.toInt).toList
  | .float f => if F64.isFinite f then some (rubyFloatToS f) else none
  | .bool b => some (toString b).toList
  | .nil => some "nil".toList
  | .sym v => if isSimpleSymbol v then some (':' :: v) else none
  | .str v => if isSimpleString v then some (debugSimple v) else none
  | .bigInt _ => none

/-- `char_value`; `char::from_u32` has no surrogates. -/
def charValue : Scalar → Option Text
  | .int n =>
      if 0 ≤ n.toInt ∧ n.toInt.toNat.isValidChar then some [Char.ofNat n.toInt.toNat] else none
  | .str [first] => some [first]
  | _ => none

/-- `int_value`. -/
def intValue : Scalar → Option Int
  | .int n => some n.toInt
  | .float f =>
      let a := Float.ofBits f
      let two63 : Float := 9223372036854775808
      if ¬a.isFinite then none
      else if trunc a ≥ -two63 ∧ trunc a < two63 then some (trunc a).toInt64.toInt
      else none
  | _ => none

/-! ## Numbers -/

/-- The radices that are asked for. -/
inductive Radix where
  | binary
  | octal
  | decimal
  | hex
  deriving DecidableEq

def Radix.value : Radix → Nat
  | .binary => 2
  | .octal => 8
  | .decimal => 10
  | .hex => 16

theorem Radix.two_le_value (radix : Radix) : 2 ≤ radix.value := by
  cases radix <;> decide

/-- `digits[d]`. -/
def digitAt (d : Nat) : Checked Char :=
  match "0123456789abcdef".toList[d]? with
  | some ch => .ok ch
  | none => .error .outOfBounds

/-- The loop of `to_radix`: the digits from the last one on. -/
def toRadixLoop (radix : Radix) (upper : Bool) (n : Nat) (buf : Text) : Checked Text :=
  if 0 < n then do
    let ch ← digitAt (n % radix.value)
    toRadixLoop radix upper (n / radix.value) (buf ++ [if upper then ch.toUpper else ch])
  else return buf
termination_by n
decreasing_by exact Nat.div_lt_self ‹0 < n› radix.two_le_value

/-- `to_radix`. -/
def toRadix (mag : Nat) (radix : Radix) (upper : Bool) : Checked Text :=
  if mag = 0 then return ['0'] else return (← toRadixLoop radix upper mag []).reverse

/-! ## Layout -/

structure Flags where
  minus : Bool := false
  zero : Bool := false
  plus : Bool := false
  space : Bool := false
  hash : Bool := false
  deriving DecidableEq

/-- `-` on `usize`. -/
def subUsize (a b : Nat) : Checked Nat :=
  if b ≤ a then .ok (a - b) else .error .arithmeticOverflow

/-- The precision of a number: the least count of its digits; `%.0` of 0 is empty. -/
def withPrecision (isZero : Prop) [Decidable isZero] (digits : Text) :
    Option Nat → Checked Text
  | none => return digits
  | some p =>
      if isZero ∧ p = 0 then return []
      else if digits.len < p then do
        return (← Text.repeat_ ['0'] (← subUsize p digits.len)) ++ digits
      else return digits

/-- `pad`. -/
def pad (body sign : Text) (flags : Flags) (width : Option Nat) (precisionGiven : Bool) :
    Checked Text :=
  let contentLen := sign.len + body.len
  match width with
  | none => return sign ++ body
  | some w =>
      if contentLen ≥ w then return sign ++ body
      else do
        let padding ← subUsize w contentLen
        if flags.minus then
          return sign ++ body ++ (← Text.repeat_ [' '] padding)
        else if flags.zero ∧ ¬precisionGiven then
          return sign ++ (← Text.repeat_ ['0'] padding) ++ body
        else
          return (← Text.repeat_ [' '] padding) ++ sign ++ body

/-- `fmt_radix_arg` on the argument it fetches. -/
def fmtRadixArg (arg : Scalar) (radix : Radix) (upper : Bool) (altPrefix : Text) (flags : Flags)
    (width precision : Option Nat) : Checked (Option Text) :=
  match arg with
  | .int n =>
      if n ≥ 0 then do
        let v := n.toInt.toNat
        let digits ← withPrecision (v = 0) (← toRadix v radix upper) precision
        let lead := if flags.hash ∧ v ≠ 0 then altPrefix else []
        return some (← pad (lead ++ digits) [] flags width precision.isSome)
      else return none
  | _ => return none

/-- `fmt_integer`. -/
def fmtInteger (value : Int) (radix : Radix) (upper : Bool) (flags : Flags)
    (width precision : Option Nat) : Checked Text := do
  let digits ← withPrecision (value = 0) (← toRadix value.natAbs radix upper) precision
  let sign :=
    if value < 0 then ['-']
    else if flags.plus then ['+']
    else if flags.space then [' ']
    else []
  pad digits sign flags width precision.isSome

/-- The characters of a string within a precision. -/
def truncateTo (s : Text) : Option Nat → Text
  | some p => s.take p
  | none => s

/-- `fmt_string`: precision and width count characters. -/
def fmtString (s : Text) (flags : Flags) (width precision : Option Nat) : Checked Text :=
  let truncated := truncateTo s precision
  match width with
  | none => return truncated
  | some w =>
      if truncated.length ≥ w then return truncated
      else do
        let padding ← Text.repeat_ [' '] (← subUsize w truncated.length)
        return if flags.minus then truncated ++ padding else padding ++ truncated

/-! ## Directives -/

/-- What stands between `%` and the conversion, and the conversion. -/
structure Directive where
  flags : Flags
  width : Option Nat
  precision : Option Nat
  conv : Char
  deriving DecidableEq

/-- Width and precision are within the limit. -/
structure Directive.Capped (d : Directive) : Prop where
  width : ∀ w ∈ d.width, w ≤ stringFoldByteLimit
  precision : ∀ p ∈ d.precision, p ≤ stringFoldByteLimit

/-- The flag of a character. -/
def Flags.set (flags : Flags) : Char → Option Flags
  | '-' => some { flags with minus := true }
  | '0' => some { flags with zero := true }
  | '+' => some { flags with plus := true }
  | ' ' => some { flags with space := true }
  | '#' => some { flags with hash := true }
  | _ => none

/-- The loop over the flags, and where it stops. -/
def scanFlags (chars : Text) (flags : Flags) (i : Nat) : Flags × Nat :=
  if inside : i < chars.length then
    match flags.set chars[i] with
    | some more => scanFlags chars more (i + 1)
    | none => (flags, i)
  else (flags, i)
termination_by chars.length - i

/-- The loop over the digits of a width or a precision, and where it stops. -/
def scanDigits (chars : Text) (digits : Text) (i : Nat) : Text × Nat :=
  if inside : i < chars.length then
    if chars[i].isDigit then scanDigits chars (digits ++ [chars[i]]) (i + 1) else (digits, i)
  else (digits, i)
termination_by chars.length - i

/-- The value of a run of digits. -/
def digitsValue (digits : Text) : Nat :=
  Nat.ofDigitChars 10 digits 0

/-- `parse::<usize>` of a run of digits. -/
def parseUsize (digits : Text) : Option Nat :=
  if digitsValue digits < 2 ^ 64 then some (digitsValue digits) else none

/-- A width or a precision within the limit. -/
def parseCapped (digits : Text) : Option Nat :=
  match parseUsize digits with
  | some n => if n > stringFoldByteLimit then none else some n
  | none => none

/-- The width at position `i`, and where it stops. -/
def readWidth (chars : Text) (i : Nat) : Option (Option Nat × Nat) :=
  if chars[i]? = some '*' then none
  else
    let (wstr, i) := scanDigits chars [] i
    if chars[i]? = some '$' then none
    else if wstr = [] then some (none, i)
    else (parseCapped wstr).map fun w => (some w, i)

/-- The precision at position `i`, and where it stops. -/
def readPrecision (chars : Text) (i : Nat) : Option (Option Nat × Nat) :=
  if chars[i]? = some '.' then
    if chars[i + 1]? = some '*' then none
    else
      let (pstr, i) := scanDigits chars [] (i + 1)
      if pstr = [] then some (some 0, i) else (parseCapped pstr).map fun p => (some p, i)
  else some (none, i)

/-- The directive whose `%` stands before position `i`, and the position after it. -/
def readDirective (chars : Text) (i : Nat) : Option (Directive × Nat) := do
  let (flags, i) := scanFlags chars {} i
  let (width, i) ← readWidth chars i
  let (precision, i) ← readPrecision chars i
  let conv ← chars[i]?
  return (⟨flags, width, precision, conv⟩, i + 1)

/-- The conversions of `sprintf`, on the argument that the directive consumes. -/
def formatArg (d : Directive) (arg : Scalar) : Checked (Option Text) :=
  match d.conv with
  | 'd' | 'i' | 'u' =>
      match intValue arg with
      | some value => return some (← fmtInteger value .decimal false d.flags d.width d.precision)
      | none => return none
  | 'x' => fmtRadixArg arg .hex false ['0', 'x'] d.flags d.width d.precision
  | 'X' => fmtRadixArg arg .hex true ['0', 'X'] d.flags d.width d.precision
  | 'o' => fmtRadixArg arg .octal false ['0'] d.flags d.width d.precision
  | 'b' => fmtRadixArg arg .binary false ['0', 'b'] d.flags d.width d.precision
  | 'B' => fmtRadixArg arg .binary false ['0', 'B'] d.flags d.width d.precision
  | 's' => return some (← fmtString (rubyStringOf arg) d.flags d.width d.precision)
  | 'p' =>
      match rubyInspect arg with
      | some inspected => return some (← fmtString inspected d.flags d.width d.precision)
      | none => return none
  | 'c' =>
      if d.precision.isSome then return none
      else
        match charValue arg with
        | some value => return some (← fmtString value d.flags d.width none)
        | none => return none
  | _ => return none

/-- The segment of a directive and the cursor after its argument.  Every conversion fetches one. -/
def segment (args : List Scalar) (argi : Nat) (d : Directive) : Checked (Option (Text × Nat)) :=
  match args[argi]? with
  | some arg => return (← formatArg d arg).map (·, argi + 1)
  | none => return none

/-! ## The interpreter -/

/-- The variables of the loop. -/
structure Frame where
  out : Text
  argi : Nat
  i : Nat

/-- An iteration goes on or returns. -/
inductive Outcome where
  | next (frame : Frame)
  | done (result : Option Text)

/-- `chars[i]`. -/
def charIndex (chars : Text) (i : Nat) : Checked Char :=
  match chars[i]? with
  | some c => .ok c
  | none => .error .outOfBounds

/-- Goes on unless the output has passed the limit. -/
def Frame.limited (frame : Frame) : Outcome :=
  if frame.out.len > stringFoldByteLimit then .done none else .next frame

/-- One iteration of the loop, or the end after it. -/
def step (chars : Text) (args : List Scalar) (s : Frame) : Checked Outcome :=
  if s.i < chars.length then do
    let c ← charIndex chars s.i
    if c ≠ '%' then return Frame.limited ⟨s.out ++ [c], s.argi, s.i + 1⟩
    else
      match chars[s.i + 1]? with
      | none => return .done none
      | some next =>
          if next = '%' then return .next ⟨s.out ++ ['%'], s.argi, s.i + 2⟩
          else
            match readDirective chars (s.i + 1) with
            | none => return .done none
            | some (d, i) =>
                match ← segment args s.argi d with
                | none => return .done none
                | some (text, argi) => return Frame.limited ⟨s.out ++ text, argi, i⟩
  else if s.argi ≠ args.length then return .done none
  else if s.out.len > stringFoldByteLimit then return .done none
  else return .done (some s.out)

/-- The loop; `none` when the fuel runs out. -/
def run (chars : Text) (args : List Scalar) : Nat → Frame → Option (Checked (Option Text))
  | 0, _ => none
  | fuel + 1, s =>
      match step chars args s with
      | .error panic => some (.error panic)
      | .ok (.done result) => some (.ok result)
      | .ok (.next s') => run chars args fuel s'

def sprintf (template : Text) (args : List Scalar) (fuel : Nat) :
    Option (Checked (Option Text)) :=
  run template args fuel ⟨[], 0, 0⟩

end Rigor.Infer.KernelFold
