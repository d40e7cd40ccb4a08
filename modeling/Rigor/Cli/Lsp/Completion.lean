import Mathlib.Data.List.DropRight
import Mathlib.Tactic.Linarith
import Rigor.Rust.Str

/-!
# Completion

What the completion handler does to the buffer on the loop thread: it turns the
position into a byte offset, walks back over the identifier under the cursor, looks
at the separator before it and splices a stub name into the text.  All of this
happens before `catch_unwind`, so a panic here ends the server.
-/

namespace Rigor.Cli.Lsp

open Rigor.Rust Rigor.Text

/-- A position of the protocol: a line and a number of UTF-16 units, both from 0. -/
structure Position where
  line : UInt32
  character : UInt32

/-- `+` on `u32`. -/
def addU32 (a b : Nat) : Checked Nat :=
  if a + b < 2 ^ 32 then .ok (a + b) else .error .arithmeticOverflow

/-- `char::len_utf16`. -/
def utf16Size (c : Char) : Nat :=
  if c.val < 0x10000 then 1 else 2

/-- The bytes before a line. -/
def lineStart : List UInt8 → Nat → Option Nat
  | _, 0 => some 0
  | [], _ + 1 => none
  | byte :: bytes, line + 1 =>
      if byte = '\n'.val.toUInt8 then (lineStart bytes line).map (1 + ·)
      else (lineStart bytes (line + 1)).map (1 + ·)

/-- Advances `character` units into a line; past its end is its end. -/
def advance (lineEnd character : Nat) : Text → Nat → Nat → Checked Nat
  | [], _, _ => .ok lineEnd
  | c :: line, offset, count =>
      if character ≤ count then .ok offset
      else do
        let count ← addU32 count (utf16Size c)
        advance lineEnd character line (offset + c.utf8Size) count

def positionToOffset (text : Text) (pos : Position) : Checked (Option Nat) :=
  match lineStart (bytes text) pos.line.toNat with
  | none => .ok none
  | some start => do
      let rest ← slice text start (len text)
      let stop := match find ['\n'] rest with
        | some n => start + n
        | none => len text
      let line ← slice text start stop
      return some (← advance stop pos.character.toNat line start 0)

def isIdentByte (b : UInt8) : Bool :=
  ('a'.val.toUInt8 ≤ b && b ≤ 'z'.val.toUInt8) || ('A'.val.toUInt8 ≤ b && b ≤ 'Z'.val.toUInt8) ||
    ('0'.val.toUInt8 ≤ b && b ≤ '9'.val.toUInt8) || b = '_'.val.toUInt8

/-- Walks back from an offset over the half-typed identifier. -/
def identStart (text : Text) : Nat → Checked Nat
  | 0 => .ok 0
  | n + 1 => do
      if isIdentByte (← byteAt text n) then identStart text n else return n + 1

/-- The separator of a constant or a class method. -/
def scopeSep (text : Text) (start : Nat) : Checked Bool :=
  if 2 ≤ start then return (← slice text (start - 2) start) = [':', ':'] else return false

/-- A plain dot, not the second dot of a range. -/
def dotSep (text : Text) (start : Nat) : Checked Bool := do
  if 1 ≤ start then
    if (← byteAt text (start - 1)) = '.'.val.toUInt8 then
      if 2 ≤ start then return (← byteAt text (start - 2)) ≠ '.'.val.toUInt8 else return true
    else return false
  else return false

/-- `bytes[start..stop].first()`. -/
def firstByte (text : Text) (start stop : Nat) : Checked (Option UInt8) :=
  if start ≤ stop ∧ stop ≤ len text then .ok (((bytes text).take stop).drop start).head?
  else .error .outOfBounds

def isAsciiLowercase (b : UInt8) : Bool :=
  'a'.val.toUInt8 ≤ b && b ≤ 'z'.val.toUInt8

def completionStub : Text :=
  "rigorCompletionHole".toList

def completionStubConst : Text :=
  "RigorCompletionHole".toList

/-- What is completed: a constant of a namespace, or a method whose stub stands at an
offset of the spliced text. -/
inductive Site where
  | namespace (synth : Text)
  | method (synth : Text) (stubAt : Nat)
  deriving DecidableEq

/-- The text with the stub in place of the half-typed name. -/
def splice (text stub : Text) (start offset : Nat) : Checked Text := do
  let front ← slice text 0 start
  let back ← slice text offset (len text)
  return front ++ stub ++ back

def namespaceCompletion (text : Text) (start offset : Nat) : Checked (Option Site) := do
  return some (.namespace (← splice text completionStubConst start offset))

/-- A constant is being written: nothing is typed after the separator yet, or no
lowercase letter begins the name. -/
def constantPosition (text : Text) (scope : Bool) (start offset : Nat) : Checked Bool :=
  if scope then return !(← firstByte text start offset).any isAsciiLowercase else return false

/-- `none` where there is nothing to complete. -/
def completion (text : Text) (pos : Position) : Checked (Option Site) := do
  match ← positionToOffset text pos with
  | none => return none
  | some offset =>
      let start ← identStart text offset
      let scope ← scopeSep text start
      let dot ← dotSep text start
      if !scope && !dot then return none
      if ← constantPosition text scope start offset then
        namespaceCompletion text start offset
      else
        return some (.method (← splice text completionStub start offset) start)

/-! ## The cursor among the characters -/

/-- The text before a line, and from there on. -/
def atLine : Nat → Text → Option (Text × Text)
  | 0, text => some ([], text)
  | _ + 1, [] => none
  | line + 1, c :: text =>
      (atLine (if c = '\n' then line else line + 1) text).map fun (front, back) => (c :: front, back)

/-- The rest of a line. -/
def lineOf (text : Text) : Text :=
  text.takeWhile (· ≠ '\n')

/-- The length of a text in UTF-16. -/
def units (text : Text) : Nat :=
  (text.map utf16Size).sum

/-- The characters of a line that begin before a unit, from a count on. -/
def column (character : Nat) : Text → Nat → Text
  | [], _ => []
  | c :: line, count =>
      if character ≤ count then [] else c :: column character line (count + utf16Size c)

/-- The text before the position, if the text has the line. -/
def beforePosition (text : Text) (pos : Position) : Option Text :=
  (atLine pos.line.toNat text).map fun (front, back) =>
    front ++ column pos.character.toNat (lineOf back) 0

/-- The counted units leave the range of `u32` before they reach the position. -/
def CounterOverflows (character : Nat) (line : Text) (count : Nat) : Prop :=
  ∃ front c back, line = front ++ c :: back ∧ count + units front < character ∧
    2 ^ 32 ≤ count + units front + utf16Size c

def isIdentChar (c : Char) : Bool :=
  c.val < 128 && isIdentByte c.val.toUInt8

/-- The text before the identifier that ends a text. -/
def beforeIdent (front : Text) : Text :=
  front.rdropWhile isIdentChar

/-- After a dot that no dot precedes. -/
def AfterDot (base : Text) : Prop :=
  ∃ front, base = front ++ ['.'] ∧ ¬ ['.'] <:+ front

/-- Directly after a scope operator or a plain dot. -/
def AfterSeparator (base : Text) : Prop :=
  [':', ':'] <:+ base ∨ AfterDot base

/-- The last two bytes, if there are two, are whole characters. -/
def EvenTail (base : Text) : Prop :=
  len base < 2 ∨ ∃ front back, base = front ++ back ∧ len back = 2

/-! ## The offset of the position -/

theorem append_of_atLine {line : Nat} {text front back : Text}
    (found : atLine line text = some (front, back)) : front ++ back = text := by
  induction text generalizing line front with
  | nil => cases line <;> simp_all [atLine]
  | cons c text ih =>
      cases line with
      | zero => simp_all [atLine]
      | succ line =>
          obtain ⟨⟨inner, rest⟩, before, same⟩ := Option.map_eq_some_iff.mp found
          obtain ⟨rfl, rfl⟩ := Prod.mk.inj same
          rw [List.cons_append, ih before]

theorem lineStart_append {front : List UInt8} (line : Nat) (back : List UInt8)
    (absent : '\n'.val.toUInt8 ∉ front) :
    lineStart (front ++ back) (line + 1) = (lineStart back (line + 1)).map (front.length + ·) := by
  induction front with
  | nil => simp
  | cons byte front ih =>
      rw [List.mem_cons, not_or] at absent
      rw [List.cons_append, lineStart, if_neg (Ne.symm absent.1), ih absent.2, Option.map_map]
      congr 1
      funext n
      simp only [Function.comp_apply, List.length_cons]
      omega

/-- A newline byte ends a character, so every line begins at a boundary. -/
theorem lineStart_bytes (line : Nat) (text : Text) :
    lineStart (bytes text) line = (atLine line text).map fun parts => len parts.1 := by
  induction text generalizing line with
  | nil => cases line <;> rfl
  | cons c text ih =>
      cases line with
      | zero => simp [atLine, lineStart]
      | succ line =>
          have split : bytes (c :: text) = String.utf8EncodeChar c ++ bytes text := by simp [bytes]
          rw [split, atLine]
          by_cases newline : c = '\n'
          · subst newline
            have single : String.utf8EncodeChar '\n' = ['\n'.val.toUInt8] := by decide
            rw [single, List.singleton_append, lineStart, if_pos rfl, if_pos rfl, ih,
              Option.map_map, Option.map_map]
            congr 1
            funext parts
            exact (len_cons '\n' parts.1).symm
          · have absent : '\n'.val.toUInt8 ∉ String.utf8EncodeChar c := by
              rw [mem_utf8EncodeChar_iff (by decide)]
              exact newline
            rw [lineStart_append line _ absent, if_neg newline, ih, Option.map_map, Option.map_map,
              String.length_utf8EncodeChar]
            congr 1
            funext parts
            exact (len_cons _ _).symm

theorem find_newline (text : Text) : (find ['\n'] text).getD (len text) = len (lineOf text) := by
  induction text with
  | nil => rfl
  | cons c text ih =>
      by_cases newline : c = '\n'
      · simp [find, lineOf, newline]
      · have other : ¬ '\n' = c := fun same => newline same.symm
        have longer : lineOf (c :: text) = c :: lineOf text :=
          List.takeWhile_cons_of_pos (by simpa using newline)
        rw [find, if_neg (by simpa [List.isPrefixOf] using other), longer, len_cons c text,
          len_cons c (lineOf text), ← ih]
        cases find ['\n'] text <;> simp

theorem prefixOf_lineOf (text : Text) : lineOf text <+: text :=
  List.takeWhile_prefix _

theorem prefixOf_column (character : Nat) (line : Text) (count : Nat) :
    column character line count <+: line := by
  induction line generalizing count with
  | nil => exact List.nil_prefix
  | cons c line ih =>
      rw [column]
      split
      · exact List.nil_prefix
      · exact (List.prefix_cons_inj c).mpr (ih _)

theorem counterOverflows_cons {character count : Nat} {c : Char} {line : Text} :
    CounterOverflows character (c :: line) count ↔
      count < character ∧ (2 ^ 32 ≤ count + utf16Size c ∨
        CounterOverflows character line (count + utf16Size c)) := by
  have shift (front : Text) : count + units (c :: front) = count + utf16Size c + units front := by
    simp [units, Nat.add_assoc]
  constructor
  · rintro ⟨front, d, back, same, before, large⟩
    cases front with
    | nil =>
        obtain ⟨rfl, rfl⟩ := List.cons.inj same
        exact ⟨by simpa [units] using before, .inl (by simpa [units] using large)⟩
    | cons e front =>
        obtain ⟨rfl, rfl⟩ := List.cons.inj same
        rw [shift] at before large
        exact ⟨by omega, .inr ⟨front, d, back, rfl, before, large⟩⟩
  · rintro ⟨before, large | ⟨front, d, back, rfl, inner, large⟩⟩
    · exact ⟨[], c, line, rfl, by simpa [units] using before, by simpa [units] using large⟩
    · refine ⟨c :: front, d, back, rfl, ?_, ?_⟩
      · rw [shift]
        exact inner
      · rw [shift]
        exact large

theorem advance_of_overflow {character : Nat} {line : Text} {count : Nat} (lineEnd offset : Nat)
    (overflow : CounterOverflows character line count) :
    advance lineEnd character line offset count = .error .arithmeticOverflow := by
  induction line generalizing offset count with
  | nil =>
      obtain ⟨front, c, back, same, -⟩ := overflow
      simp at same
  | cons c line ih =>
      obtain ⟨before, large | later⟩ := counterOverflows_cons.mp overflow
      · rw [advance, if_neg (Nat.not_le.mpr before), addU32, if_neg (Nat.not_lt.mpr large)]
        rfl
      · rw [advance, if_neg (Nat.not_le.mpr before), addU32]
        split
        · exact ih _ later
        · rfl

theorem advance_eq {character : Nat} {line : Text} {count : Nat} (offset : Nat)
    (fits : ¬ CounterOverflows character line count) :
    advance (offset + len line) character line offset count =
      .ok (offset + len (column character line count)) := by
  induction line generalizing offset count with
  | nil => rfl
  | cons c line ih =>
      rw [counterOverflows_cons] at fits
      rw [advance, column]
      split
      · simp
      · rename_i before
        have small : count + utf16Size c < 2 ^ 32 := by
          apply Nat.not_le.mp
          exact fun large => fits ⟨Nat.not_le.mp before, .inl large⟩
        have inner := ih (offset + c.utf8Size) fun later =>
          fits ⟨Nat.not_le.mp before, .inr later⟩
        rw [addU32, if_pos small, len_cons, len_cons, ← Nat.add_assoc, ← Nat.add_assoc]
        exact inner

/-- The bytes of the source end up where the characters do, unless the counter overflows. -/
theorem positionToOffset_eq {text front back : Text} {pos : Position}
    (found : atLine pos.line.toNat text = some (front, back)) :
    positionToOffset text pos =
      (advance (len front + len (lineOf back)) pos.character.toNat (lineOf back) (len front) 0).map
        some := by
  obtain ⟨rest, whole⟩ := prefixOf_lineOf back
  have begin_ : lineStart (bytes text) pos.line.toNat = some (len front) := by
    rw [lineStart_bytes, found, Option.map_some]
  have tail : slice text (len front) (len text) = .ok back := by
    have := slice_append front back []
    rwa [List.append_nil, append_of_atLine found, ← len_append, append_of_atLine found] at this
  have stop : (match find ['\n'] back with
      | some n => len front + n
      | none => len text) = len front + len (lineOf back) := by
    rw [← find_newline, ← append_of_atLine found]
    cases find ['\n'] back <;> simp
  have line : slice text (len front) (len front + len (lineOf back)) = .ok (lineOf back) := by
    have := slice_append front (lineOf back) rest
    rwa [List.append_assoc, whole, append_of_atLine found] at this
  rw [positionToOffset, begin_]
  simp only [tail, stop, line, bind, Except.bind]
  cases advance (len front + len (lineOf back)) pos.character.toNat (lineOf back) (len front) 0 <;> rfl

/-! ## The identifier and its separator -/

theorem isIdentByte_lt {b : UInt8} (ident : isIdentByte b = true) : b < 128 := by
  rw [UInt8.lt_iff_toNat_lt]
  simp only [isIdentByte, Bool.or_eq_true, Bool.and_eq_true, decide_eq_true_eq,
    UInt8.le_iff_toNat_le, ← UInt8.toNat_inj] at ident
  have letters : 'z'.val.toUInt8.toNat = 122 ∧ 'Z'.val.toUInt8.toNat = 90 ∧
      '9'.val.toUInt8.toNat = 57 ∧ '_'.val.toUInt8.toNat = 95 := by decide
  change b.toNat < 128
  omega

theorem isIdentByte_lastByte (c : Char) : isIdentByte (lastByte c) = isIdentChar c := by
  by_cases ascii : c.val < 128
  · rw [isIdentChar, (lastByte_eq_iff ascii).mpr rfl]
    simp [ascii]
  · have wide : ¬ lastByte c < 128 := by
      intro low
      have single := (utf8EncodeChar_of_byte_lt (List.getLast_mem _) low).1
      have bound := UInt32.le_iff_toNat_le.mp (Char.utf8Size_eq_one_iff.mp single)
      exact ascii (UInt32.lt_iff_toNat_lt.mpr (Nat.lt_succ_of_le bound))
    rw [isIdentChar, decide_eq_false ascii, Bool.false_and, Bool.eq_false_iff]
    exact fun ident => wide (isIdentByte_lt ident)

theorem identStart_eq (front back : Text) :
    identStart (front ++ back) (len front) = .ok (len (beforeIdent front)) := by
  induction front using List.reverseRecOn generalizing back with
  | nil => rfl
  | append_singleton front c ih =>
      have size := c.utf8Size_pos
      obtain ⟨n, total⟩ : ∃ n, len (front ++ [c]) = n + 1 :=
        ⟨_, (Nat.succ_pred (by simp; omega)).symm⟩
      have byte := byteAt_append front back c
      rw [total, Nat.add_sub_cancel] at byte
      rw [total, identStart, byte]
      simp only [bind, Except.bind, isIdentByte_lastByte, beforeIdent]
      by_cases ident : isIdentChar c = true
      · have single : c.utf8Size = 1 := by
          rw [isIdentChar, Bool.and_eq_true, decide_eq_true_eq] at ident
          exact utf8Size_of_ascii ident.1
        have shorter : n = len front := by
          simp only [len_append, len_cons, len_nil] at total
          omega
        rw [if_pos ident, List.rdropWhile_concat_pos _ _ _ ident, shorter, List.append_assoc]
        exact ih _
      · rw [if_neg ident, List.rdropWhile_concat_neg _ _ _ ident, total]
        rfl

theorem prefixOf_beforeIdent (front : Text) : beforeIdent front <+: front :=
  List.rdropWhile_prefix _ _

/-- Two bytes before a boundary is a boundary exactly after two bytes of whole characters. -/
theorem slice_two {base : Text} (back : Text) (long : 2 ≤ len base) :
    (∃ front tail, base = front ++ tail ∧ len tail = 2 ∧
      slice (base ++ back) (len base - 2) (len base) = .ok tail) ∨
    (¬ EvenTail base ∧ slice (base ++ back) (len base - 2) (len base) = .error .outOfBounds) := by
  by_cases even : EvenTail base
  · rcases even with short | ⟨front, tail, rfl, two⟩
    · omega
    · left
      have stop : len (front ++ tail) - 2 = len front := by
        rw [len_append, two, Nat.add_sub_cancel]
      refine ⟨front, tail, rfl, two, ?_⟩
      rw [stop, len_append]
      exact slice_append front tail back
  · right
    refine ⟨even, ?_⟩
    have uncut : splitAt (len base - 2) base = none := by
      rw [Option.eq_none_iff_forall_ne_some]
      rintro ⟨front, tail⟩ cut
      apply even
      right
      obtain ⟨whole, start⟩ := of_splitAt cut
      have total : len front + len tail = len base := by rw [← len_append, whole]
      exact ⟨front, tail, whole.symm, by omega⟩
    rw [slice, if_neg (by omega), splitAt_append, Option.bind_some]
    simp only [uncut]

theorem scopeSep_eq {base : Text} (back : Text) (even : EvenTail base) :
    scopeSep (base ++ back) (len base) = .ok (decide ([':', ':'] <:+ base)) := by
  have two : len [':', ':'] = 2 := by decide
  rw [scopeSep]
  split
  · rename_i long
    obtain ⟨front, tail, rfl, size, sliced⟩ | ⟨odd, -⟩ := slice_two back long
    · rw [sliced]
      refine congrArg Except.ok (decide_eq_decide.mpr ?_)
      constructor
      · rintro rfl
        exact List.suffix_append _ _
      · rintro ⟨start, same⟩
        have lengths : len start = len front := by
          have := congrArg len same
          rw [len_append, len_append, two, size] at this
          omega
        have cut := splitAt_append front tail
        rw [← same, ← lengths, splitAt_append] at cut
        exact (Prod.mk.inj (Option.some.inj cut)).2.symm
    · contradiction
  · rename_i short
    have none_ : ¬ [':', ':'] <:+ base := by
      rintro ⟨start, rfl⟩
      rw [len_append, two] at short
      omega
    rw [decide_eq_false none_]
    rfl

theorem scopeSep_of_odd {base : Text} (back : Text) (odd : ¬ EvenTail base) :
    scopeSep (base ++ back) (len base) = .error .outOfBounds := by
  have long : 2 ≤ len base := Nat.not_lt.mp fun short => odd (.inl short)
  rw [scopeSep, if_pos long]
  obtain ⟨front, tail, rfl, size, -⟩ | ⟨-, sliced⟩ := slice_two back long
  · exact absurd (.inr ⟨front, tail, rfl, size⟩) odd
  · rw [sliced]
    rfl

theorem endsWith_iff {front : Text} {c d : Char} : [d] <:+ front ++ [c] ↔ c = d := by
  constructor
  · rintro ⟨start, same⟩
    exact (List.append_inj' same rfl).2 |> List.singleton_inj.mp |>.symm
  · rintro rfl
    exact List.suffix_append _ _

theorem dotSep_eq (base back : Text) :
    ∃ dot, dotSep (base ++ back) (len base) = .ok dot ∧ (dot = true ↔ AfterDot base) := by
  rcases List.eq_nil_or_concat base with rfl | ⟨front, c, rfl⟩
  · exact ⟨false, rfl, by simp [AfterDot]⟩
  · rw [List.concat_eq_append]
    have size := c.utf8Size_pos
    have long : 1 ≤ len (front ++ [c]) := by
      simp
      omega
    have dotEnd : lastByte c = '.'.val.toUInt8 ↔ c = '.' := lastByte_eq_iff (by decide)
    rw [dotSep, if_pos long, byteAt_append]
    simp only [bind, Except.bind]
    by_cases isDot : c = '.'
    · subst isDot
      rw [if_pos (dotEnd.mpr rfl)]
      have after : AfterDot (front ++ ['.']) ↔ ¬ ['.'] <:+ front := by
        constructor
        · rintro ⟨start, same, plain⟩
          rwa [(List.append_inj' same rfl).1]
        · exact fun plain => ⟨front, rfl, plain⟩
      rcases List.eq_nil_or_concat front with rfl | ⟨start, d, rfl⟩
      · refine ⟨true, rfl, ?_⟩
        rw [eq_self_iff_true, true_iff, after]
        simp
      · rw [List.concat_eq_append] at after ⊢
        have dSize := d.utf8Size_pos
        have two : 2 ≤ len (start ++ [d] ++ ['.']) := by
          simp
          have : '.'.utf8Size = 1 := rfl
          omega
        have before : len (start ++ [d] ++ ['.']) - 2 = len (start ++ [d]) - 1 := by
          rw [len_append _ ['.']]
          rfl
        have byte := byteAt_append start (['.'] ++ back) d
        rw [if_pos two, before]
        rw [List.append_assoc _ ['.'] back, byte]
        refine ⟨_, rfl, ?_⟩
        rw [after, endsWith_iff, ← lastByte_eq_iff (a := '.') (by decide)]
        simp
    · rw [if_neg (dotEnd.not.mpr isDot)]
      refine ⟨false, rfl, ?_⟩
      simp only [Bool.false_eq_true, false_iff]
      rintro ⟨start, same, -⟩
      exact isDot (List.singleton_inj.mp (List.append_inj' same rfl).2)

/-! ## The handler -/

/-- The text around the identifier under a cursor. -/
theorem split_beforeIdent (front back : Text) :
    ∃ name, front = beforeIdent front ++ name ∧
      front ++ back = beforeIdent front ++ (name ++ back) := by
  obtain ⟨name, whole⟩ := prefixOf_beforeIdent front
  exact ⟨name, whole.symm, by rw [← List.append_assoc, whole]⟩

theorem splice_ok (front back stub : Text) :
    ∃ synth, splice (front ++ back) stub (len (beforeIdent front)) (len front) = .ok synth := by
  obtain ⟨name, -, whole⟩ := split_beforeIdent front back
  have start := slice_append [] (beforeIdent front) (name ++ back)
  have stop := slice_append front back []
  rw [List.nil_append, ← whole, len_nil, Nat.zero_add] at start
  rw [List.append_nil, ← len_append] at stop
  exact ⟨_, by rw [splice, start, stop]; rfl⟩

theorem constantPosition_ok (front back : Text) (scope : Bool) :
    ∃ constant, constantPosition (front ++ back) scope (len (beforeIdent front)) (len front) =
      .ok constant := by
  obtain ⟨name, whole, -⟩ := split_beforeIdent front back
  have ordered : len (beforeIdent front) ≤ len front := by
    have total := congrArg len whole
    rw [len_append] at total
    omega
  cases scope with
  | false => exact ⟨false, rfl⟩
  | true =>
      rw [constantPosition, if_pos rfl, firstByte, if_pos ⟨ordered, by simp⟩]
      exact ⟨_, rfl⟩

/-- With whole characters before the identifier the handler answers exactly after a separator. -/
theorem completion_of_even {front back : Text} {pos : Position}
    (offset : positionToOffset (front ++ back) pos = .ok (some (len front)))
    (even : EvenTail (beforeIdent front)) :
    ∃ site, completion (front ++ back) pos = .ok site ∧
      (site.isSome = true ↔ AfterSeparator (beforeIdent front)) := by
  obtain ⟨name, -, whole⟩ := split_beforeIdent front back
  have scope := scopeSep_eq (name ++ back) even
  obtain ⟨dot, dotFound, dotIff⟩ := dotSep_eq (beforeIdent front) (name ++ back)
  rw [← whole] at scope dotFound
  rw [completion, offset]
  simp only [bind, Except.bind, identStart_eq, scope, dotFound]
  by_cases after : AfterSeparator (beforeIdent front)
  · have found : ¬ (!decide ([':', ':'] <:+ beforeIdent front) && !dot) = true := by
      rcases after with colons | dotted
      · simp [colons]
      · simp [dotIff.mpr dotted]
    obtain ⟨constant, decided⟩ := constantPosition_ok front back
      (decide ([':', ':'] <:+ beforeIdent front))
    rw [if_neg found]
    simp only [decided]
    cases constant with
    | true =>
        obtain ⟨synth, spliced⟩ := splice_ok front back completionStubConst
        refine ⟨some (.namespace synth), ?_, by simp [after]⟩
        simp [namespaceCompletion, spliced, bind, Except.bind, pure, Except.pure]
    | false =>
        obtain ⟨synth, spliced⟩ := splice_ok front back completionStub
        refine ⟨some (.method synth (len (beforeIdent front))), ?_, by simp [after]⟩
        simp [spliced, pure, Except.pure]
  · have absent : (!decide ([':', ':'] <:+ beforeIdent front) && !dot) = true := by
      have unscoped : ¬ [':', ':'] <:+ beforeIdent front := fun colons => after (.inl colons)
      have undotted : dot ≠ true := fun dotted => after (.inr (dotIff.mp dotted))
      simp [unscoped, undotted]
    rw [if_pos absent]
    exact ⟨none, rfl, by simp [after]⟩

/-- Where the two bytes before the identifier cut a character, the handler panics. -/
theorem completion_of_odd {front back : Text} {pos : Position}
    (offset : positionToOffset (front ++ back) pos = .ok (some (len front)))
    (odd : ¬ EvenTail (beforeIdent front)) :
    completion (front ++ back) pos = .error .outOfBounds := by
  obtain ⟨name, -, whole⟩ := split_beforeIdent front back
  have scope := scopeSep_of_odd (name ++ back) odd
  rw [← whole] at scope
  rw [completion, offset]
  simp only [bind, Except.bind, identStart_eq, scope]

/-- The position becomes a boundary of the text or nothing, the handler reaches a
result, and that is a site exactly where a separator precedes the identifier. -/
def Handles (text : Text) (pos : Position) : Prop :=
  ∃ offset site, positionToOffset text pos = .ok offset ∧ completion text pos = .ok site ∧
    match offset with
    | none => site = none
    | some offset => ∃ front back, front ++ back = text ∧ len front = offset ∧
        (site.isSome = true ↔ AfterSeparator (beforeIdent front))

/-- Counting the units of the line to the position leaves the range of `u32`. -/
def PositionOverflows (text : Text) (pos : Position) : Prop :=
  ∃ front back, atLine pos.line.toNat text = some (front, back) ∧
    CounterOverflows pos.character.toNat (lineOf back) 0

/-- The characters before the identifier under the cursor end in two whole bytes. -/
def EvenAt (text : Text) (pos : Position) : Prop :=
  ∀ front, beforePosition text pos = some front → EvenTail (beforeIdent front)

theorem positionToOffset_of_none {text : Text} {pos : Position}
    (absent : atLine pos.line.toNat text = none) : positionToOffset text pos = .ok none := by
  rw [positionToOffset, lineStart_bytes, absent]
  rfl

/-- Where the counter stays in range the offset is that of the text before the position. -/
theorem positionToOffset_of_fits {text front back : Text} {pos : Position}
    (found : atLine pos.line.toNat text = some (front, back))
    (fits : ¬ CounterOverflows pos.character.toNat (lineOf back) 0) :
    ∃ before after, beforePosition text pos = some before ∧ before ++ after = text ∧
      positionToOffset text pos = .ok (some (len before)) := by
  obtain ⟨rest, whole⟩ := (prefixOf_column pos.character.toNat (lineOf back) 0).trans
    (prefixOf_lineOf back)
  refine ⟨front ++ column pos.character.toNat (lineOf back) 0, rest, ?_, ?_, ?_⟩
  · rw [beforePosition, found, Option.map_some]
  · rw [List.append_assoc, whole, append_of_atLine found]
  · rw [positionToOffset_eq found, advance_eq _ fits, len_append]
    rfl

/-- The handler does its work on the loop thread exactly where the counter stays in
range and no character is cut two bytes before the identifier. -/
theorem handles_iff (text : Text) (pos : Position) :
    Handles text pos ↔ ¬ PositionOverflows text pos ∧ EvenAt text pos := by
  rcases found : atLine pos.line.toNat text with _ | ⟨front, back⟩
  · have offset := positionToOffset_of_none found
    constructor
    · intro _
      constructor
      · rintro ⟨front, back, same, -⟩
        rw [found] at same
        contradiction
      · intro before same
        rw [beforePosition, found] at same
        contradiction
    · intro _
      refine ⟨none, none, offset, ?_, rfl⟩
      rw [completion, offset]
      rfl
  · by_cases fits : CounterOverflows pos.character.toNat (lineOf back) 0
    · constructor
      · rintro ⟨offset, site, counted, -⟩
        rw [positionToOffset_eq found, advance_of_overflow _ _ fits] at counted
        contradiction
      · rintro ⟨safe, -⟩
        exact absurd ⟨front, back, found, fits⟩ safe
    · obtain ⟨before, after, cursor, rfl, offset⟩ := positionToOffset_of_fits found fits
      constructor
      · rintro ⟨offset', site, -, answered, -⟩
        constructor
        · rintro ⟨front', back', same, overflow⟩
          rw [found] at same
          obtain ⟨rfl, rfl⟩ := Prod.mk.inj (Option.some.inj same)
          exact fits overflow
        · intro other same
          rw [cursor] at same
          obtain rfl := Option.some.inj same
          by_contra odd
          rw [completion_of_odd offset odd] at answered
          contradiction
      · rintro ⟨-, even⟩
        obtain ⟨site, answered, decided⟩ := completion_of_even offset (even before cursor)
        exact ⟨_, site, offset, answered, before, after, rfl, rfl, decided⟩

/-- A cursor after a two-byte letter and a dot ends the server. -/
theorem not_handles_letter_dot : ¬ Handles ['é', '.'] ⟨0, 2⟩ := by
  rintro ⟨offset, site, -, answered, -⟩
  have counted : ¬ CounterOverflows 2 ['é', '.'] 0 := by
    rintro overflow
    obtain ⟨-, large | later⟩ := counterOverflows_cons.mp overflow
    · exact absurd large (by decide)
    · obtain ⟨-, large | ⟨front, c, back, same, -⟩⟩ := counterOverflows_cons.mp later
      · exact absurd large (by decide)
      · simp at same
  obtain ⟨before, after, cursor, whole, start⟩ :=
    @positionToOffset_of_fits ['é', '.'] [] ['é', '.'] ⟨0, 2⟩ rfl counted
  obtain rfl : ['é', '.'] = before := Option.some.inj cursor
  obtain rfl : after = [] := by simpa using whole
  have odd : ¬ EvenTail (beforeIdent ['é', '.']) := by
    have same : beforeIdent ['é', '.'] = ['é', '.'] := by decide
    rw [same]
    rintro (short | ⟨front, back, cut, two⟩)
    · exact absurd short (by decide)
    · match front with
      | [] =>
          obtain rfl : ['é', '.'] = back := cut
          exact absurd two (by decide)
      | [_] =>
          obtain ⟨-, rfl⟩ := List.cons.inj cut
          exact absurd two (by decide)
      | _ :: _ :: front =>
          obtain ⟨-, last⟩ := List.cons.inj cut
          obtain ⟨-, rest⟩ := List.cons.inj last
          obtain ⟨-, rfl⟩ := List.append_eq_nil_iff.mp rest.symm
          exact absurd two (by decide)
  have panics := @completion_of_odd ['é', '.'] [] ⟨0, 2⟩ start odd
  rw [List.append_nil, answered] at panics
  contradiction

end Rigor.Cli.Lsp
