import Rigor.Rust.Str
import Rigor.Types.Ty

/-!
# Constant folding

`fold` computes a method call on literals.  `none` declines; a panic of the source
is an error.
-/

namespace Rigor.Infer

open Rigor.Rust Rigor.Types

/-- The outcome of a fold that may panic. -/
abbrev Folded := Checked (Option Scalar)

/-! ## Integer -/

/-- `Integer#%`: the result has the sign of the divisor. -/
def rubyMod (a b : Int64) : Checked Int64 := do
  let r ← rem a b
  if r ≠ 0 ∧ (r < 0) ≠ (b < 0) then add r b else return r

/-- The arms of `fold_int` with one integer argument. -/
def foldIntBinary (a : Int64) (method : String) (b : Int64) : Folded :=
  match method with
  | "+" => return (checkedAdd a b).map .int
  | "-" => return (checkedSub a b).map .int
  | "*" => return (checkedMul a b).map .int
  | "/" => return if b = 0 then none else (checkedDivEuclid a b).map .int
  | "%" => if b = 0 then return none else return some (.int (← rubyMod a b))
  | "**" =>
      return if b < 0 ∨ b > 4294967295 then none else (checkedPow a (asUsize b)).map .int
  | "&" => return some (.int (a &&& b))
  | "|" => return some (.int (a ||| b))
  | "^" => return some (.int (a ^^^ b))
  | "<<" => return if 0 ≤ b ∧ b < 64 then (checkedShl a (asUsize b)).map .int else none
  | ">>" => if 0 ≤ b ∧ b < 64 then return some (.int (← shr a b)) else return none
  | "<" => return some (.bool (a < b))
  | "<=" => return some (.bool (a ≤ b))
  | ">" => return some (.bool (a > b))
  | ">=" => return some (.bool (a ≥ b))
  | "==" => return some (.bool (a = b))
  | _ => return none

/-- `fold_int`. -/
def foldInt (a : Int64) (method : String) (args : List Scalar) : Folded :=
  match method, args with
  | "abs", [] => return (checkedAbs a).map .int
  | "succ", [] => return (checkedAdd a 1).map .int
  | "pred", [] => return (checkedSub a 1).map .int
  | "even?", [] => return some (.bool ((← rem a 2) = 0))
  | "odd?", [] => return some (.bool ((← rem a 2) ≠ 0))
  | "zero?", [] => return some (.bool (a = 0))
  | "to_s", [] => return some (.str (toString a.toInt).toList)
  | _, _ =>
      match args with
      | [.int b] => foldIntBinary a method b
      | _ => return none

/-! ## Float -/

/-- An ordering `as i64`. -/
def orderingInt : Ordering → Int64
  | .lt => -1
  | .eq => 0
  | .gt => 1

/-- `f64::trunc`. -/
def trunc (a : Float) : Float :=
  if a < 0 then a.ceil else a.floor

/-- `partial_cmp` of two finite floats. -/
def compareFinite (a b : Float) : Ordering :=
  if a < b then .lt else if b < a then .gt else .eq

/-- `float_cmp`. -/
def floatCmp (a : Float) (args : List Scalar) : Option Scalar :=
  if ¬ a.isFinite then none
  else
    match args with
    | [.float b] =>
        if (Float.ofBits b).isFinite then
          some (.int (orderingInt (compareFinite a (Float.ofBits b))))
        else none
    | [.int b] =>
        let two63 : Float := 9223372036854775808
        if a ≥ two63 then some (.int 1)
        else if a < -two63 then some (.int (-1))
        else
          let whole := trunc a
          some (.int (orderingInt ((compare whole.toInt64 b).then (compareFinite a whole))))
    | [.str _] | [.sym _] | [.bool _] | [.nil] => some .nil
    | _ => none

/-- `fold_float`; floats are passed by their bits. -/
def foldFloat (bits : UInt64) (method : String) (args : List Scalar) : Option Scalar :=
  let a := Float.ofBits bits
  match method, args with
  | "abs", [] => some (.float a.abs.toBits)
  | "<=>", args => floatCmp a args
  | method, [.float bits] =>
      let b := Float.ofBits bits
      match method with
      | "+" => some (.float (a + b).toBits)
      | "-" => some (.float (a - b).toBits)
      | "*" => some (.float (a * b).toBits)
      | "<" => some (.bool (a < b))
      | "<=" => some (.bool (a ≤ b))
      | ">" => some (.bool (a > b))
      | ">=" => some (.bool (a ≥ b))
      | "==" => some (.bool (a == b))
      | _ => none
  | _, _ => none

/-! ## Booleans, `nil`, symbols -/

/-- `truthy`: only booleans and `nil` are modelled operands. -/
def truthy : Scalar → Option Bool
  | .bool b => some b
  | .nil => some false
  | _ => none

/-- `fold_bool`. -/
def foldBool (a : Bool) (method : String) (args : List Scalar) : Option Scalar :=
  match method, args with
  | "!", [] => some (.bool !a)
  | "&", [b] => if a then (truthy b).map .bool else some (.bool false)
  | "|", [b] => if a then some (.bool true) else (truthy b).map .bool
  | "==", [.bool b] => some (.bool (a = b))
  | _, _ => none

/-- `fold_nil`. -/
def foldNil (method : String) (args : List Scalar) : Option Scalar :=
  match method, args with
  | "!", [] => some (.bool true)
  | "&", [_] => some (.bool false)
  | "|", [b] => (truthy b).map .bool
  | "==", [.nil] => some (.bool true)
  | "==", [_] => some (.bool false)
  | _, _ => none

/-- `fold_sym`. -/
def foldSym (a : Text) (method : String) (args : List Scalar) : Option Scalar :=
  match method, args with
  | "to_s", [] => some (.str a)
  | "==", [.sym b] => some (.bool (a = b))
  | "==", [_] => some (.bool false)
  | _, _ => none

/-! ## String -/

/-- A negative index counts from the end. -/
def fromEnd (i len : Int64) : Checked Int64 :=
  if i < 0 then add i len else return i

/-- The substring of `count` characters, by `rb_str_subpos`. -/
def substr (a : Text) (start count : Int64) : Checked Scalar := do
  let len := asI64 a.len
  let start ← fromEnd start len
  if count < 0 ∨ start < 0 ∨ start > len then return .nil
  let stop := min (saturatingAdd start count) len
  return .str (← a.slice (asUsize start) (asUsize stop))

/-- `[]`, `slice` and `byteslice` with one index. -/
def charAt (a : Text) (i : Int64) : Checked Scalar := do
  let len := asI64 a.len
  let i ← fromEnd i len
  if 0 ≤ i ∧ i < len then
    return .str (← a.slice (asUsize i) (← addUsize (asUsize i) 1))
  else return .nil

/-- `getbyte`. -/
def getByte (a : Text) (i : Int64) : Checked Scalar := do
  let len := asI64 a.len
  let i ← fromEnd i len
  if 0 ≤ i ∧ i < len then
    return .int (asI64 (← a.byteAt (asUsize i)).toNat)
  else return .nil

/-- `index` and `byteindex` from an offset. -/
def indexFrom (a sub : Text) (offset : Int64) : Checked Scalar := do
  let len := asI64 a.len
  let offset ← fromEnd offset len
  if 0 ≤ offset ∧ offset ≤ len then
    let start := asUsize offset
    match Text.find sub (← a.slice start a.len) with
    | some p => return .int (asI64 (← addUsize start p))
    | none => return .nil
  else return .nil

/-- The search of `rindex` and `byterindex` up to a start. -/
def rindexUpTo (a sub : Text) (start : Int64) : Checked Scalar := do
  let len := asI64 a.len
  let slen := asI64 sub.len
  if slen > len then return .nil
  let stop := min (← add start slen) len
  match Text.rfind sub (← a.slice 0 (asUsize stop)) with
  | some p => return .int (asI64 p)
  | none => return .nil

/-- `rindex` and `byterindex`: the start defaults to the end and clamps to it. -/
def rindex (a sub : Text) (rest : List Scalar) : Folded := do
  let len := asI64 a.len
  match rest with
  | [] => return some (← rindexUpTo a sub len)
  | [.int p] =>
      let p ← fromEnd p len
      if p < 0 then return some .nil
      return some (← rindexUpTo a sub (min p len))
  | _ => return none

/-- `fold_str_lookup`. -/
def foldStrLookup (a : Text) (method : String) (args : List Scalar) : Folded :=
  if ¬ a.isAscii then return none
  else
    match method, args with
    | "[]", [.int i] | "slice", [.int i] | "byteslice", [.int i] => return some (← charAt a i)
    | "[]", [.int start, .int count] | "slice", [.int start, .int count]
    | "byteslice", [.int start, .int count] => return some (← substr a start count)
    | "[]", [.str sub] | "slice", [.str sub] =>
        return if sub.isAscii then some (if a.contains sub then .str sub else .nil) else none
    | "getbyte", [.int i] => return some (← getByte a i)
    | "index", [.str sub] | "byteindex", [.str sub] =>
        return if sub.isAscii then
          some (((Text.find sub a).map fun p => Scalar.int (asI64 p)).getD .nil)
        else none
    | "rindex", .str sub :: rest | "byterindex", .str sub :: rest =>
        if sub.isAscii then rindex a sub rest else return none
    | "index", [.str sub, .int offset] | "byteindex", [.str sub, .int offset] =>
        if sub.isAscii then return some (← indexFrom a sub offset) else return none
    | _, _ => return none

/-- `fold_str`. -/
def foldStr (a : Text) (method : String) (args : List Scalar) : Folded :=
  match method, args with
  | "length", [] | "size", [] => return some (.int (asI64 a.length))
  | "empty?", [] => return some (.bool a.isEmpty)
  | "upcase", [] => return if a.isAscii then some (.str (a.map Char.toUpper)) else none
  | "downcase", [] => return if a.isAscii then some (.str (a.map Char.toLower)) else none
  | "reverse", [] => return if a.isAscii then some (.str a.reverse) else none
  | "+", [.str b] => return some (.str (← a.concat b))
  | "*", [.int n] =>
      if n < 0 ∨ n > 4096 then return none else return some (.str (← a.repeat_ (asUsize n)))
  | "==", [.str b] => return some (.bool (a = b))
  | "==", [_] => return some (.bool false)
  | "[]", args | "slice", args | "byteslice", args | "index", args | "getbyte", args
  | "rindex", args | "byteindex", args | "byterindex", args => foldStrLookup a method args
  | _, _ => return none

/-! ## `fold` -/

/-- The dispatch of `fold` on the receiver. -/
def foldReceiver (receiver : Scalar) (method : String) (args : List Scalar) : Folded :=
  match receiver with
  | .int a => foldInt a method args
  | .bigInt _ => return none
  | .float bits => return foldFloat bits method args
  | .bool a => return foldBool a method args
  | .nil => return foldNil method args
  | .sym a => return foldSym a method args
  | .str a => foldStr a method args

/-- `fold`.  Its recursive call is on `==`, which goes to the receiver. -/
def fold (receiver : Scalar) (method : String) (args : List Scalar) : Folded :=
  match method, args with
  | "nil?", [] => return some (.bool (receiver = .nil))
  | "!=", [_] => do
      match ← foldReceiver receiver "==" args with
      | some (.bool b) => return some (.bool !b)
      | _ => return none
  | _, _ => foldReceiver receiver method args

end Rigor.Infer
