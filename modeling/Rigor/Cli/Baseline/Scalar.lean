import Rigor.Rust.Lines

/-!
# YAML scalars of a baseline

How the writer spells a value as a scalar, and how the reader takes a value's first
line apart and decodes what it has collected.
-/

namespace Rigor.Cli

open Rigor.Rust

/-- The parts of the standard library that rest on Unicode tables. -/
structure UnicodeTables where
  /-- `char::is_alphanumeric`. -/
  isAlphanumeric : Char → Bool
  /-- The `{:?}` format of a string. -/
  debug : Text → Text

/-! ## Writing -/

inductive YamlStyle where
  | plain
  | single
  | double
  | taggedSingle
  | literal
deriving DecidableEq, Repr

/-- Digits and underscores, starting with a digit. -/
def isDigits (text : Text) : Bool :=
  (text.head?.any Char.isDigit) && text.all fun c => c.isDigit || c = '_'

/-- A nonempty run of digits of a base, or underscores, after one of two prefixes. -/
def isBased (low high : Text) (digit : Char → Bool) (text : Text) : Bool :=
  match (Text.stripPrefix low text).or (Text.stripPrefix high text) with
  | some digits => digits ≠ [] && digits.all fun c => digit c || c = '_'
  | none => false

def isHexDigit (c : Char) : Bool :=
  c.isDigit || ('a' ≤ c && c ≤ 'f') || ('A' ≤ c && c ≤ 'F')

/-- Plain words that load as booleans, `nil` or floats. -/
def reservedWords : List Text :=
  ["yes".toList, "no".toList, "true".toList, "false".toList, "on".toList, "off".toList,
    "null".toList, "~".toList, ".nan".toList, ".inf".toList, "-.inf".toList, "+.inf".toList]

/-- `scans_as_nonstring`. -/
def scansAsNonstring (s : Text) : Bool :=
  let t :=
    match s with
    | '+' :: rest => rest
    | '-' :: rest => rest
    | rest => rest
  s.map Char.toLower ∈ reservedWords || s.head? = some ':' || isDigits t ||
    isBased "0x".toList "0X".toList isHexDigit t ||
    isBased "0o".toList "0O".toList (fun c => '0' ≤ c && c ≤ '7') t ||
    isBased "0b".toList "0B".toList (fun c => c = '0' || c = '1') t ||
    (2 ≤ s.length && s.head? = some '0' && s.all Char.isDigit) ||
    (Text.parsesF64 s && s.head?.any fun c => c.isDigit || c = '.' || c = '+' || c = '-') ||
    (8 ≤ Text.len s && (s.take 4).all Char.isDigit && s[4]? = some '-')

/-- The characters that cannot start a plain scalar. -/
def indicators : List Char :=
  "!&*?|>%@`\"'#,[]{} ".toList

/-- `needs_single_quoting`. -/
def needsSingleQuoting (s : Text) : Bool :=
  s.isEmpty || Text.contains s ": ".toList || Text.contains s " #".toList ||
    s.head?.any (· ∈ indicators) || s.getLast? = some ' ' || s.getLast? = some ':' ||
    scansAsNonstring s

/-- `scalar_style`. -/
def scalarStyle (U : UnicodeTables) (s : Text) : YamlStyle :=
  if (Text.splitOnce '\n' s).any fun (_, rest) => rest ≠ [] then .literal
  else if s = "<<".toList then .taggedSingle
  else if s ∈ ["y".toList, "Y".toList, "n".toList, "N".toList] then .double
  else if s.head?.any fun first => !(U.isAlphanumeric first || first = '_' || List.contains s '"') then
    .double
  else if needsSingleQuoting s then .single
  else if s.any isControl then .double
  else .plain

/-- A digit of the `{:02X}` format. -/
def upperHex (n : Nat) : Char :=
  if n < 10 then Char.ofNat ('0'.toNat + n) else Char.ofNat ('A'.toNat + (n - 10))

/-- The escape of one character in `double_quote`. -/
def doubleEscape (c : Char) : Text :=
  if c = '"' then ['\\', '"']
  else if c = '\\' then ['\\', '\\']
  else if c = '\n' then ['\\', 'n']
  else if c = '\t' then ['\\', 't']
  else if c = '\r' then ['\\', 'r']
  else if isControl c then ['\\', 'x', upperHex (c.toNat / 16), upperHex (c.toNat % 16)]
  else [c]

/-- `double_quote`. -/
def doubleQuote (s : Text) : Text :=
  '"' :: s.flatMap doubleEscape ++ ['"']

/-- `value.replace('\'', "''")`. -/
def doubleApostrophes (s : Text) : Text :=
  s.flatMap fun c => if c = '\'' then ['\'', '\''] else [c]

def singleQuote (s : Text) : Text :=
  '\'' :: doubleApostrophes s ++ ['\'']

/-- The block header: the chomping marker keeps the trailing line feeds. -/
def literalHeader (value : Text) : Text :=
  if ['\n', '\n'] <:+ value then "|+".toList
  else if ['\n'] <:+ value then "|".toList
  else "|-".toList

/-- The content lines of a block. -/
def literalLines (value : Text) : List Text :=
  let lines := value.splitOn '\n'
  if lines.getLast? = some [] then lines.dropLast else lines

/-- The plain emission loop: a space past column 80 becomes a break. -/
def foldPlain (indent : Nat) : Nat → Text → Text
  | _, [] => []
  | col, c :: rest =>
      if c = ' ' ∧ 80 < col then
        '\n' :: (List.replicate indent ' ' ++ foldPlain indent indent rest)
      else c :: foldPlain indent (col + 1) rest

/-- `push_kv`: the prefix, the scalar and a line feed. -/
def pushKv (U : UnicodeTables) (start : Text) (memberCol : Nat) (value : Text) : Text :=
  let indent := memberCol + 2
  start ++
    match scalarStyle U value with
    | .literal =>
        literalHeader value ++ '\n' :: Text.unlines ((literalLines value).map fun line =>
          if line = [] then [] else List.replicate indent ' ' ++ line)
    | .taggedSingle => "!!str ".toList ++ singleQuote value ++ ['\n']
    | .single => singleQuote value ++ ['\n']
    | .double => doubleQuote value ++ ['\n']
    | .plain => foldPlain indent start.length value ++ ['\n']

/-! ## Reading -/

/-- How a block settles its trailing line feeds. -/
inductive Chomp where
  | strip
  | clip
  | keep
deriving DecidableEq, Repr

/-- The flavor of the last value: how continuation lines join it. -/
inductive ScalarKind where
  | plain
  | doubleQuoted
  | singleQuoted
  | block (folded : Bool) (chomp : Chomp)
deriving DecidableEq, Repr

/-- Up to the closing apostrophe, if there is one; two are an escaped one. -/
def singleSpan : Text → Option Text
  | [] => none
  | '\'' :: '\'' :: rest => (singleSpan rest).map fun span => '\'' :: '\'' :: span
  | '\'' :: _ => some ['\'']
  | c :: rest => (singleSpan rest).map (c :: ·)

/-- Up to the closing quote, if there is one; a backslash escapes a character. -/
def doubleSpan : Text → Option Text
  | [] => none
  | '"' :: _ => some ['"']
  | '\\' :: c :: rest => (doubleSpan rest).map fun span => '\\' :: c :: span
  | c :: rest => (doubleSpan rest).map (c :: ·)

/-- `dq_closed`. -/
def dqClosed : Text → Bool
  | '"' :: rest => (doubleSpan rest).isSome
  | _ => false

/-- `sq_closed`. -/
def sqClosed : Text → Bool
  | '\'' :: rest => (singleSpan rest).isSome
  | _ => false

/-- A plain scalar ends before a comment. -/
def cutComment (v : Text) : Text :=
  match Text.find " #".toList v with
  | some i => Text.trimEnd (((Text.splitAt i v).map Prod.fst).getD [])
  | none => Text.trimEnd v

/-- Drop a `!tag` token. -/
def dropTag (v : Text) : Text :=
  match v with
  | '!' :: rest => Text.trimStart (rest.dropWhile fun c => !(c = ' ' || c = '\t'))
  | v => v

/-- `scalar_head`: the initial raw text of a value and its kind. -/
def scalarHead (value : Text) : Text × ScalarKind :=
  if value.head? = some '#' then ([], .plain)
  else
    let v := dropTag value
    match v with
    | '"' :: rest => ('"' :: (doubleSpan rest).getD rest, .doubleQuoted)
    | '\'' :: rest => ('\'' :: (singleSpan rest).getD rest, .singleQuoted)
    | '|' :: rest => (v, .block false (chompOf rest))
    | '>' :: rest => (v, .block true (chompOf rest))
    | v => (cutComment v, .plain)
where
  chompOf : Text → Chomp
    | '-' :: _ => .strip
    | '+' :: _ => .keep
    | _ => .clip

/-- The value of a hexadecimal digit, `char::to_digit(16)`. -/
def hexDigit (c : Char) : Option Nat :=
  if c.isDigit then some (c.toNat - '0'.toNat)
  else if 'a' ≤ c ∧ c ≤ 'f' then some (c.toNat - 'a'.toNat + 10)
  else if 'A' ≤ c ∧ c ≤ 'F' then some (c.toNat - 'A'.toNat + 10)
  else none

/-- `hex_escape`: the character of a code of `width` digits, and the rest. -/
def hexEscape (value : Nat) : Nat → Text → Char × Text
  | 0, rest => (if value.isValidChar then Char.ofNat value else '\ufffd', rest)
  | _ + 1, [] => ('\ufffd', [])
  | width + 1, c :: rest =>
      match hexDigit c with
      | some digit => hexEscape (value * 16 + digit) width rest
      | none => ('\ufffd', rest)

theorem length_hexEscape_le (value width : Nat) (text : Text) :
    (hexEscape value width text).2.length ≤ text.length := by
  induction width generalizing value text with
  | zero => exact Nat.le_refl _
  | succ width ih =>
      cases text with
      | nil => exact Nat.le_refl _
      | cons c rest =>
          rw [hexEscape]
          split
          · exact Nat.le_trans (ih _ rest) (Nat.le_succ _)
          · exact Nat.le_succ _

/-- The escapes of one character. -/
def simpleEscape (c : Char) : Option Char :=
  match c with
  | '0' => some '\x00'
  | 'a' => some '\x07'
  | 'b' => some '\x08'
  | 'n' => some '\n'
  | 't' | '\t' => some '\t'
  | 'v' => some '\x0b'
  | 'f' => some '\x0c'
  | 'r' => some '\r'
  | 'e' => some '\x1b'
  | '"' => some '"'
  | '/' => some '/'
  | '\\' => some '\\'
  | ' ' => some ' '
  | 'N' => some '\u0085'
  | '_' => some '\u00a0'
  | 'L' => some '\u2028'
  | 'P' => some '\u2029'
  | _ => none

/-- The number of digits of a code escape. -/
def codeWidth (c : Char) : Option Nat :=
  match c with
  | 'x' => some 2
  | 'u' => some 4
  | 'U' => some 8
  | _ => none

/-- `unescape_double`. -/
def unescapeDouble : Text → Text
  | [] => []
  | '\\' :: [] => ['\\']
  | '\\' :: c :: rest =>
      match simpleEscape c, codeWidth c with
      | some decoded, _ => decoded :: unescapeDouble rest
      | none, some width =>
          have := length_hexEscape_le 0 width rest
          (hexEscape 0 width rest).1 :: unescapeDouble (hexEscape 0 width rest).2
      | none, none => '\\' :: c :: unescapeDouble rest
  | c :: rest => c :: unescapeDouble rest
termination_by text => text.length
decreasing_by
  all_goals
    simp only [List.length_cons]
    omega

/-- `replace("''", "'")`. -/
def mergeApostrophes : Text → Text
  | '\'' :: '\'' :: rest => '\'' :: mergeApostrophes rest
  | c :: rest => c :: mergeApostrophes rest
  | [] => []

/-- The text between the quotes, if it stands in quotes. -/
def quoted (quote : Char) (s : Text) : Option Text :=
  if 2 ≤ s.length ∧ s.head? = some quote ∧ s.getLast? = some quote then some s.tail.dropLast
  else none

/-- `unyaml_scalar`. -/
def unyamlScalar (s : Text) : Text :=
  let s := Text.trim s
  match quoted '\'' s, quoted '"' s with
  | some inner, _ => mergeApostrophes inner
  | none, some inner => unescapeDouble inner
  | none, none => s

/-- The lines of a block, joined by line feeds or folded to spaces. -/
def joinBlock (folded : Bool) : List Text → Text
  | [] => []
  | [line] => line
  | line :: next :: rest =>
      let sep := if folded && next ≠ [] && line ≠ [] then ' ' else '\n'
      line ++ sep :: joinBlock folded (next :: rest)

/-- `block_value`. -/
def blockValue (lines : List Text) (folded : Bool) (chomp : Chomp) : Text :=
  let out := joinBlock folded lines
  let ending : Text := if lines = [] then [] else ['\n']
  match chomp with
  | .strip => out.rdropWhile (· = '\n')
  | .clip => out.rdropWhile (· = '\n') ++ ending
  | .keep => out ++ ending

end Rigor.Cli
