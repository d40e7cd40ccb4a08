import Mathlib.Data.List.DropRight
import Rigor.Library.Separated
import Rigor.Rust.Str

/-!
# Whitespace, lines and number texts

The character classes, the trimming and splitting methods of `str`, and the texts
that `str::parse` accepts as numbers.
-/

namespace Rigor.Rust

/-- `char::is_whitespace`, the `White_Space` property. -/
def isWhitespace (c : Char) : Bool :=
  let n := c.toNat
  (0x09 ≤ n && n ≤ 0x0d) || n = 0x20 || n = 0x85 || n = 0xa0 || n = 0x1680 ||
    (0x2000 ≤ n && n ≤ 0x200a) || n = 0x2028 || n = 0x2029 || n = 0x202f || n = 0x205f || n = 0x3000

/-- `char::is_control`, the category `Cc`. -/
def isControl (c : Char) : Bool :=
  c.toNat < 0x20 || (0x7f ≤ c.toNat && c.toNat < 0xa0)

end Rigor.Rust

namespace Rigor.Text

open Rigor.Library.Separated Rigor.Rust

def trimStart (text : Text) : Text :=
  text.dropWhile isWhitespace

def trimEnd (text : Text) : Text :=
  text.rdropWhile isWhitespace

def trim (text : Text) : Text :=
  trimEnd (trimStart text)

def stripPrefix (start text : Text) : Option Text :=
  if start.isPrefixOf text then some (text.drop start.length) else none

/-- `str::split_once` at a character. -/
def splitOnce (sep : Char) : Text → Option (Text × Text)
  | [] => none
  | c :: text =>
      if c = sep then some ([], text)
      else (splitOnce sep text).map fun (front, back) => (c :: front, back)

/-- `str::rsplit_once` at a substring. -/
def rsplitOnce (sep : Text) : Text → Option (Text × Text)
  | [] => if sep = [] then some ([], []) else none
  | c :: text =>
      match rsplitOnce sep text with
      | some (front, back) => some (c :: front, back)
      | none => if sep.isPrefixOf (c :: text) then some ([], (c :: text).drop sep.length) else none

/-- A line without its carriage return. -/
def stripReturn (line : Text) : Text :=
  if line.getLast? = some '\r' then line.dropLast else line

/-- The lines of a text that continues the line `front`. -/
def linesFrom (front : Text) : Text → List Text
  | [] => if front = [] then [] else [front]
  | c :: text => if c = '\n' then stripReturn front :: linesFrom [] text else linesFrom (front ++ [c]) text

/-- `str::lines`. -/
def lines (text : Text) : List Text :=
  linesFrom [] text

/-- Lines, each with its line feed. -/
def unlines (lines : List Text) : Text :=
  lines.flatMap (· ++ ['\n'])

/-! ## Numbers -/

def digitsValue (digits : Text) : Option Nat :=
  if digits ≠ [] ∧ digits.all Char.isDigit then
    some (digits.foldl (fun value c => 10 * value + (c.toNat - '0'.toNat)) 0)
  else none

/-- `str::parse::<i64>`. -/
def parseI64 (text : Text) : Option Int :=
  let value : Option Int :=
    match text with
    | '+' :: digits => (digitsValue digits).map fun n => (n : Int)
    | '-' :: digits => (digitsValue digits).map fun n => -(n : Int)
    | digits => (digitsValue digits).map fun n => (n : Int)
  value.filter fun n => -2 ^ 63 ≤ n ∧ n < 2 ^ 63

/-- `str::parse::<u64>` and `str::parse::<usize>`. -/
def parseU64 (text : Text) : Option Nat :=
  let value :=
    match text with
    | '+' :: digits => digitsValue digits
    | digits => digitsValue digits
  value.filter fun n => n < 2 ^ 64

/-- Digits with at most one point, and at least one digit. -/
def isDecimal (text : Text) : Bool :=
  let rest := text.dropWhile Char.isDigit
  let whole := text.takeWhile Char.isDigit
  match rest with
  | [] => whole ≠ []
  | '.' :: fraction => fraction.all Char.isDigit && (whole ≠ [] || fraction ≠ [])
  | _ => false

/-- Whether `str::parse::<f64>` accepts the text. -/
def parsesF64 (text : Text) : Bool :=
  let unsigned :=
    match text with
    | '+' :: rest => rest
    | '-' :: rest => rest
    | rest => rest
  let isExponent (c : Char) : Bool := c = 'e' || c = 'E'
  let mantissa := unsigned.takeWhile fun c => !isExponent c
  let lower := unsigned.map Char.toLower
  lower = "inf".toList || lower = "infinity".toList || lower = "nan".toList ||
    (isDecimal mantissa &&
      match unsigned.dropWhile fun c => !isExponent c with
      | [] => true
      | _ :: '+' :: digits => (digitsValue digits).isSome
      | _ :: '-' :: digits => (digitsValue digits).isSome
      | _ :: digits => (digitsValue digits).isSome)

/-! ## Lines -/

@[simp]
theorem unlines_nil : unlines [] = [] :=
  rfl

@[simp]
theorem unlines_cons (line : Text) (lines : List Text) :
    unlines (line :: lines) = line ++ '\n' :: unlines lines := by
  simp [unlines]

@[simp]
theorem unlines_append (front back : List Text) :
    unlines (front ++ back) = unlines front ++ unlines back :=
  List.flatMap_append

theorem linesFrom_append {line : Text} (oneLine : '\n' ∉ line) (front rest : Text) :
    linesFrom front (line ++ rest) = linesFrom (front ++ line) rest := by
  induction line generalizing front with
  | nil => rw [List.nil_append, List.append_nil]
  | cons c line ih =>
      rw [List.mem_cons, not_or] at oneLine
      rw [List.cons_append, linesFrom, if_neg (Ne.symm oneLine.1), ih oneLine.2, List.append_assoc,
        List.singleton_append]

/-- Lines that are joined are read as the lines that they are. -/
theorem lines_intercalate {rows : List Text}
    (plain : ∀ row ∈ rows, row ≠ [] ∧ '\n' ∉ row ∧ '\r' ∉ row) :
    lines (['\n'].intercalate rows) = rows := by
  induction rows with
  | nil => rfl
  | cons row rows ih =>
      rw [List.forall_mem_cons] at plain
      rcases plain with ⟨⟨nonempty, oneLine, noReturn⟩, later⟩
      by_cases last : rows = []
      · have start := linesFrom_append oneLine [] []
        rw [List.append_nil, List.nil_append] at start
        rw [last, List.intercalate_singleton, lines, start, linesFrom, if_neg nonempty]
      · have kept : stripReturn row = row :=
          if_neg fun atEnd => noReturn (List.mem_of_getLast? atEnd)
        rw [intercalate_cons_of_ne_nil '\n' row last, lines, linesFrom_append oneLine, linesFrom,
          if_pos rfl, List.nil_append, kept]
        exact congrArg (row :: ·) (ih later)

/-! ## Cutting -/

theorem splitOnce_append {before : Text} {sep : Char} (first : sep ∉ before) (rest : Text) :
    splitOnce sep (before ++ sep :: rest) = some (before, rest) := by
  induction before with
  | nil => rw [List.nil_append, splitOnce, if_pos rfl]
  | cons c before ih =>
      rw [List.mem_cons, not_or] at first
      rw [List.cons_append, splitOnce, if_neg (Ne.symm first.1), ih first.2, Option.map_some]

theorem of_splitOnce {text before rest : Text} {sep : Char}
    (split : splitOnce sep text = some (before, rest)) :
    sep ∉ before ∧ text = before ++ sep :: rest := by
  induction text generalizing before with
  | nil => simp [splitOnce] at split
  | cons c text ih =>
      rw [splitOnce] at split
      by_cases here : c = sep
      · rw [if_pos here, Option.some.injEq, Prod.mk.injEq] at split
        obtain ⟨rfl, rfl⟩ := split
        exact ⟨List.not_mem_nil, congrArg (· :: text) here⟩
      · rw [if_neg here, Option.map_eq_some_iff] at split
        obtain ⟨⟨front, back⟩, later, same⟩ := split
        obtain ⟨rfl, rfl⟩ := Prod.mk.inj same
        obtain ⟨notMem, text_eq⟩ := ih later
        refine ⟨?_, congrArg (c :: ·) text_eq⟩
        rw [List.mem_cons, not_or]
        exact ⟨Ne.symm here, notMem⟩

theorem stripPrefix_append (front back : Text) :
    stripPrefix front (front ++ back) = some back := by
  rw [stripPrefix, if_pos (List.isPrefixOf_iff_prefix.mpr (List.prefix_append front back)),
    List.drop_left]

theorem of_stripPrefix {front text back : Text} (stripped : stripPrefix front text = some back) :
    text = front ++ back := by
  rw [stripPrefix, Option.ite_none_right_eq_some, List.isPrefixOf_iff_prefix] at stripped
  obtain ⟨⟨rest, rfl⟩, same⟩ := stripped
  rw [List.drop_left, Option.some.injEq] at same
  rw [same]

/-! ## Trimming -/

@[simp]
theorem trimStart_nil : trimStart [] = [] :=
  rfl

@[simp]
theorem trimEnd_nil : trimEnd [] = [] :=
  rfl

@[simp]
theorem trim_nil : trim [] = [] :=
  rfl

theorem trimStart_cons_of_not {c : Char} (visible : isWhitespace c = false) (text : Text) :
    trimStart (c :: text) = c :: text := by
  simp [trimStart, visible]

theorem trimStart_cons_of {c : Char} (blank : isWhitespace c = true) (text : Text) :
    trimStart (c :: text) = trimStart text := by
  simp [trimStart, blank]

theorem trimStart_append_of_blank {front : Text} (blank : ∀ c ∈ front, isWhitespace c = true)
    (text : Text) : trimStart (front ++ text) = trimStart text :=
  List.dropWhile_append_of_pos blank

theorem trimStart_eq_self_iff {text : Text} :
    trimStart text = text ↔ ∀ c, text.head? = some c → isWhitespace c = false := by
  cases text with
  | nil => simp
  | cons c text =>
      cases blank : isWhitespace c with
      | false => simp [trimStart_cons_of_not blank, blank]
      | true =>
          rw [trimStart_cons_of blank]
          have shorter : (trimStart text).length < (c :: text).length :=
            Nat.lt_succ_of_le (List.dropWhile_sublist _).length_le
          have moved : trimStart text ≠ c :: text := fun same => by simp [same] at shorter
          simp [moved, blank]

theorem trimEnd_eq_self_iff {text : Text} :
    trimEnd text = text ↔ ∀ c, text.getLast? = some c → isWhitespace c = false := by
  rw [trimEnd, List.rdropWhile_eq_self_iff]
  constructor
  · intro visible c last
    have nonempty : text ≠ [] := by
      rintro rfl
      simp at last
    rw [List.getLast?_eq_some_getLast nonempty, Option.some.injEq] at last
    simpa [last] using visible nonempty
  · intro visible nonempty
    simp [visible _ (List.getLast?_eq_some_getLast nonempty)]

theorem trimEnd_cons (c : Char) (text : Text) :
    trimEnd (c :: text) =
      if trimEnd text = [] then if isWhitespace c then [] else [c] else c :: trimEnd text := by
  rw [trimEnd, List.rdropWhile, List.reverse_cons, List.dropWhile_append]
  by_cases blank : text.reverse.dropWhile isWhitespace = []
  · cases space : isWhitespace c <;> simp [blank, space, trimEnd, List.rdropWhile]
  · simp [blank, trimEnd, List.rdropWhile]

/-- Both ends are trimmed independently. -/
theorem trimStart_trimEnd (text : Text) : trimStart (trimEnd text) = trim text := by
  induction text with
  | nil => rfl
  | cons c text ih =>
      cases blank : isWhitespace c with
      | false =>
          rw [trim, trimStart_cons_of_not blank]
          exact trimStart_eq_self_iff.mpr (by rw [trimEnd_cons]; split <;> simp [blank])
      | true =>
          rw [trim, trimStart_cons_of blank, ← trim, ← ih, trimEnd_cons]
          split
          · rename_i empty
            simp [empty]
          · rw [trimStart_cons_of blank]

theorem trim_concat_of_blank {c : Char} (blank : isWhitespace c = true) (text : Text) :
    trim (text ++ [c]) = trim text := by
  rw [← trimStart_trimEnd, ← trimStart_trimEnd, trimEnd, trimEnd, List.rdropWhile_concat_pos _ _ _ blank]

theorem trim_append_of_blank {front : Text} (blank : ∀ c ∈ front, isWhitespace c = true)
    (text : Text) : trim (front ++ text) = trim text := by
  rw [trim, trimStart_append_of_blank blank, ← trim]

theorem trim_eq_self_iff {text : Text} :
    trim text = text ↔ trimStart text = text ∧ trimEnd text = text := by
  constructor
  · intro trimmed
    have start : trimStart text = text := by
      have shorter : (trim text).length ≤ (trimStart text).length :=
        (List.rdropWhile_prefix _ _).length_le
      rw [trimmed] at shorter
      exact (List.dropWhile_sublist _).eq_of_length_le shorter
    rw [trim, start] at trimmed
    exact ⟨start, trimmed⟩
  · rintro ⟨start, stop⟩
    rw [trim, start, stop]

/-- A text in visible quotes is trimmed. -/
theorem trim_of_ends {first last : Char} (visibleFirst : isWhitespace first = false)
    (visibleLast : isWhitespace last = false) (text : Text) :
    trim (first :: (text ++ [last])) = first :: (text ++ [last]) := by
  refine trim_eq_self_iff.mpr ⟨trimStart_cons_of_not visibleFirst _, trimEnd_eq_self_iff.mpr ?_⟩
  intro c atEnd
  rw [← List.cons_append, List.getLast?_concat, Option.some.injEq] at atEnd
  exact atEnd ▸ visibleLast

theorem trimEnd_stripReturn (text : Text) : trimEnd (stripReturn text) = trimEnd text := by
  rw [stripReturn]
  split
  · rename_i last
    obtain ⟨front, rfl⟩ : ∃ front, text = front ++ ['\r'] := by
      rw [List.getLast?_eq_some_iff] at last
      exact last
    rw [List.dropLast_concat, trimEnd, trimEnd, List.rdropWhile_concat_pos _ _ _ (by decide)]
  · rfl

@[simp]
theorem trim_stripReturn (text : Text) : trim (stripReturn text) = trim text := by
  rw [← trimStart_trimEnd, trimEnd_stripReturn, trimStart_trimEnd]

theorem stripReturn_append {text : Text} (nonempty : text ≠ []) (front : Text) :
    stripReturn (front ++ text) = front ++ stripReturn text := by
  rw [stripReturn, stripReturn, List.getLast?_append_of_ne_nil _ nonempty]
  split
  · rw [List.dropLast_append_of_ne_nil nonempty]
  · rfl

theorem stripReturn_of_not {text : Text} (noReturn : text.getLast? ≠ some '\r') :
    stripReturn text = text :=
  if_neg noReturn

end Rigor.Text

namespace Rigor.Rust

/-! ## Decimal texts -/

theorem isDigit_of_mem_toDigits {n : Nat} {c : Char} (mem : c ∈ Nat.toDigits 10 n) :
    c.isDigit = true :=
  Nat.isDigit_of_mem_toDigits (by decide) (by decide) mem

/-- A number is read back. -/
theorem digitsValue_toDigits (n : Nat) : Text.digitsValue (Nat.toDigits 10 n) = some n := by
  have decimal : Nat.toDigits 10 n ≠ [] ∧ (Nat.toDigits 10 n).all Char.isDigit = true := by
    refine ⟨Nat.toDigits_ne_nil, ?_⟩
    rw [List.all_eq_true]
    exact fun c mem => isDigit_of_mem_toDigits mem
  rw [Text.digitsValue, if_pos decimal]
  exact congrArg some Nat.ofDigitChars_ten_toDigits

end Rigor.Rust
