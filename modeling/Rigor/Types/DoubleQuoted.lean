import Mathlib.Data.List.TakeWhile
import Rigor.Library.Numerals
import Rigor.Types.Display

/-!
# Reading back what is displayed

Ruby's rules for a double-quoted literal, what they make of the output of
`ruby_inspect_dq`, and the strings and symbols that `scalar_inspect` tells apart.
-/

namespace Rigor.Types

open Rigor.Library.Numerals Rigor.Rust

/-! ## Double-quoted literals -/

/-- The value of a digit of a base up to sixteen. -/
def digitValue (c : Char) : Option Nat :=
  if '0' ≤ c ∧ c ≤ '9' then some (c.toNat - '0'.toNat)
  else if 'a' ≤ c ∧ c ≤ 'f' then some (c.toNat - 'a'.toNat + 10)
  else if 'A' ≤ c ∧ c ≤ 'F' then some (c.toNat - 'A'.toNat + 10)
  else none

def isDigitOf (base : Nat) (c : Char) : Bool :=
  (digitValue c).any fun d => d < base

/-- The longest run of at most `most` digits of the base. -/
def digitsOf (base most : Nat) (text : Text) : Text :=
  (text.take most).takeWhile (isDigitOf base)

/-- The number that some digits spell. -/
def numberOf (base : Nat) (digits : Text) : Nat :=
  value base 0 (digits.filterMap digitValue)

/-- A numeric escape: the character, and the text after the digits.  A byte above
`0x7f` is no character of its own. -/
def readNumber (base most : Nat) (text : Text) : Option (Text × Text) :=
  let digits := digitsOf base most text
  if digits = [] ∨ 0x80 ≤ numberOf base digits then none
  else some ([Char.ofNat (numberOf base digits)], text.drop digits.length)

/-- The character of a one-letter escape; other characters stand for themselves. -/
def namedEscape (c : Char) : Char :=
  if c = 'n' then '\n'
  else if c = 't' then '\t'
  else if c = 'r' then '\r'
  else if c = 'a' then '\x07'
  else if c = 'b' then '\x08'
  else if c = 'f' then '\x0c'
  else if c = 'v' then '\x0b'
  else if c = 'e' then '\x1b'
  else if c = 's' then ' '
  else c

/-- What a backslash and the text after it stand for, with at most `octal` digits to
an octal escape.  Unicode, control and meta escapes are not read. -/
def readEscape (octal : Nat) : Text → Option (Text × Text)
  | [] => none
  | c :: rest =>
      if isDigitOf 8 c then readNumber 8 octal (c :: rest)
      else if c = 'x' then readNumber 16 2 rest
      else if c ∈ ['u', 'c', 'C', 'M'] then none
      else if c = '\n' then some ([], rest)
      else some ([namedEscape c], rest)

theorem readEscape_length {octal : Nat} {text chars later : Text}
    (reads : readEscape octal text = some (chars, later)) : later.length ≤ text.length := by
  have number {base most : Nat} {text : Text}
      (reads : readNumber base most text = some (chars, later)) :
      later.length ≤ text.length := by
    simp only [readNumber, Option.ite_none_left_eq_some, Option.some.injEq, Prod.mk.injEq] at reads
    rw [← reads.2.2, List.length_drop]
    exact Nat.sub_le _ _
  cases text with
  | nil => simp [readEscape] at reads
  | cons c rest =>
      rw [readEscape] at reads
      rw [List.length_cons]
      split_ifs at reads
      · exact number reads
      · exact Nat.le_succ_of_le (number reads)
      · simp only [Option.some.injEq, Prod.mk.injEq] at reads
        exact reads.2 ▸ Nat.le_succ _
      · simp only [Option.some.injEq, Prod.mk.injEq] at reads
        exact reads.2 ▸ Nat.le_succ _

/-- The text between the quotes; the closing quote has to be the last character, and
an interpolation is not read. -/
def readBody (octal : Nat) : Text → Option Text
  | [] => none
  | c :: rest =>
      if c = '"' then if rest = [] then some [] else none
      else if c = '\\' then
        match _ : readEscape octal rest with
        | none => none
        | some (chars, later) => (readBody octal later).map (chars ++ ·)
      else if c = '#' ∧ opensInterpolation rest then none
      else (readBody octal rest).map (c :: ·)
termination_by text => text.length
decreasing_by
  · exact Nat.lt_succ_of_le (readEscape_length ‹_›)
  · exact Nat.lt_succ_self _

/-- A whole text as one literal without interpolation. -/
def readQuoted (octal : Nat) : Text → Option Text
  | [] => none
  | c :: body => if c = '"' then readBody octal body else none

/-- Ruby's octal escapes take up to three digits. -/
def readLiteral : Text → Option Text :=
  readQuoted 3

theorem readBody_quote (octal : Nat) : readBody octal ['"'] = some [] := by
  simp [readBody]

theorem readBody_escape {octal : Nat} {text chars later : Text}
    (reads : readEscape octal text = some (chars, later)) :
    readBody octal ('\\' :: text) = (readBody octal later).map (chars ++ ·) := by
  rw [readBody, if_neg (by decide), if_pos rfl]
  split
  · rename_i none
    rw [reads] at none
    nomatch none
  · rename_i chars' later' some
    rw [reads, Option.some.injEq, Prod.mk.injEq] at some
    rw [some.1, some.2]

theorem readBody_plain {octal : Nat} {c : Char} {text : Text} (noQuote : c ≠ '"')
    (noEscape : c ≠ '\\') (closed : ¬(c = '#' ∧ opensInterpolation text)) :
    readBody octal (c :: text) = (readBody octal text).map (c :: ·) := by
  rw [readBody, if_neg noQuote, if_neg noEscape, if_neg closed]

/-! ## What the escapes read as -/

/-- The two digits of a control byte are read back. -/
theorem hexByte_spec : ∀ n < 0x80, digitsOf 16 2 (hexByte n) = hexByte n ∧
    numberOf 16 (hexByte n) = n := by
  decide

theorem readNumber_hexByte {n : Nat} (small : n < 0x80) (text : Text) :
    readNumber 16 2 (hexByte n ++ text) = some ([Char.ofNat n], text) := by
  obtain ⟨digits, number⟩ := hexByte_spec n small
  have first : digitsOf 16 2 (hexByte n ++ text) = hexByte n := digits
  rw [readNumber, first, number, if_neg]
  · rfl
  · rintro (empty | large)
    · exact List.cons_ne_nil _ _ empty
    · exact Nat.not_le_of_lt small large

/-- A one-letter escape. -/
theorem readBody_named {octal : Nat} {letter : Char} {text : Text} (notOctal : isDigitOf 8 letter = false)
    (notSpecial : letter ∉ ['x', 'u', 'c', 'C', 'M', '\n']) :
    readBody octal ('\\' :: letter :: text) = (readBody octal text).map (namedEscape letter :: ·) := by
  simp only [List.mem_cons, not_or] at notSpecial
  have reads : readEscape octal (letter :: text) = some ([namedEscape letter], text) := by
    rw [readEscape, notOctal, if_neg (by decide), if_neg notSpecial.1, if_neg, if_neg]
    · simp [notSpecial]
    · simp [notSpecial]
  exact readBody_escape reads

/-- The forms of an escape. -/
inductive Escape (guarded : Bool) (c : Char) : Text → Prop
  | named {letter : Char} (same : namedEscape letter = c) (notOctal : isDigitOf 8 letter = false)
      (notSpecial : letter ∉ ['x', 'u', 'c', 'C', 'M', '\n']) : Escape guarded c ['\\', letter]
  | nul (isNul : c = '\x00') : Escape guarded c ['\\', '0']
  | hex (small : c.toNat < 0x80) : Escape guarded c ('\\' :: 'x' :: hexByte c.toNat)
  | plain (noQuote : c ≠ '"') (noEscape : c ≠ '\\') (notNul : c ≠ '\x00')
      (unguarded : c = '#' → guarded = false) : Escape guarded c [c]

theorem escapeChar_spec (guarded : Bool) (c : Char) : Escape guarded c (escapeChar guarded c) := by
  unfold escapeChar
  by_cases quote : c = '"'
  · rw [if_pos quote]
    subst quote
    exact .named rfl (by decide) (by decide)
  rw [if_neg quote]
  by_cases escape : c = '\\'
  · rw [if_pos escape]
    subst escape
    exact .named rfl (by decide) (by decide)
  rw [if_neg escape]
  by_cases newline : c = '\n'
  · rw [if_pos newline]
    subst newline
    exact .named rfl (by decide) (by decide)
  rw [if_neg newline]
  by_cases tab : c = '\t'
  · rw [if_pos tab]
    subst tab
    exact .named rfl (by decide) (by decide)
  rw [if_neg tab]
  by_cases ret : c = '\r'
  · rw [if_pos ret]
    subst ret
    exact .named rfl (by decide) (by decide)
  rw [if_neg ret]
  by_cases nul : c.toNat = 0
  · rw [if_pos nul]
    exact .nul (Char.toNat_inj.mp nul)
  rw [if_neg nul]
  by_cases bell : c.toNat = 0x07
  · rw [if_pos bell]
    exact .named (Char.toNat_inj.mp bell.symm) (by decide) (by decide)
  rw [if_neg bell]
  by_cases back : c.toNat = 0x08
  · rw [if_pos back]
    exact .named (Char.toNat_inj.mp back.symm) (by decide) (by decide)
  rw [if_neg back]
  by_cases feed : c.toNat = 0x0c
  · rw [if_pos feed]
    exact .named (Char.toNat_inj.mp feed.symm) (by decide) (by decide)
  rw [if_neg feed]
  by_cases vertical : c.toNat = 0x0b
  · rw [if_pos vertical]
    exact .named (Char.toNat_inj.mp vertical.symm) (by decide) (by decide)
  rw [if_neg vertical]
  by_cases esc : c.toNat = 0x1b
  · rw [if_pos esc]
    exact .named (Char.toNat_inj.mp esc.symm) (by decide) (by decide)
  rw [if_neg esc]
  by_cases hash : c = '#'
  · rw [if_pos hash]
    subst hash
    cases guarded with
    | true => exact .named rfl (by decide) (by decide)
    | false => exact .plain (by decide) (by decide) (by decide) fun _ => rfl
  rw [if_neg hash]
  by_cases control : c.toNat < 0x20 ∨ c.toNat = 0x7f
  · rw [if_pos control]
    exact .hex (by omega)
  rw [if_neg control]
  refine .plain quote escape ?_ fun isHash => absurd isHash hash
  rintro rfl
  exact nul rfl

/-- Each escape but that of NUL stands for its character. -/
theorem readBody_escapeChar {octal : Nat} {guarded : Bool} {c : Char} {text : Text}
    (notNul : c ≠ '\x00') (closed : guarded = opensInterpolation text) :
    readBody octal (escapeChar guarded c ++ text) = (readBody octal text).map (c :: ·) := by
  have escape := escapeChar_spec guarded c
  generalize escapeChar guarded c = escaped at escape
  cases escape with
  | named same notOctal notSpecial => exact same ▸ readBody_named notOctal notSpecial
  | nul isNul => exact absurd isNul notNul
  | hex small =>
      have reads : readEscape octal ('x' :: (hexByte c.toNat ++ text)) = some ([c], text) := by
        rw [readEscape, if_neg (by decide), if_pos rfl, readNumber_hexByte small, Char.ofNat_toNat]
      exact readBody_escape reads
  | plain noQuote noEscape _ unguarded =>
      apply readBody_plain noQuote noEscape
      rintro ⟨hash, opens⟩
      exact absurd (closed.symm.trans (unguarded hash) ▸ opens) Bool.false_ne_true

/-! ## What the whole text reads as -/

theorem ofNat_mem_digits : ∀ n < 56, 48 ≤ n →
    Char.ofNat n ∈ ['0', '1', '2', '3', '4', '5', '6', '7'] := by
  decide

theorem isDigitOf_eight {c : Char} (digit : isDigitOf 8 c = true) :
    c ∈ ['0', '1', '2', '3', '4', '5', '6', '7'] := by
  have range : 48 ≤ c.toNat ∧ c.toNat < 56 := by
    simp only [isDigitOf, digitValue, Char.le_def, UInt32.le_iff_toNat_le] at digit
    have code : c.val.toNat = c.toNat := rfl
    rw [code] at digit
    split_ifs at digit with decimal lower upper
    · have small : c.toNat - 48 < 8 := by simpa using digit
      have low : 48 ≤ c.toNat := decimal.1
      omega
    · have small : c.toNat - 97 + 10 < 8 := by simpa using digit
      omega
    · have small : c.toNat - 65 + 10 < 8 := by simpa using digit
      omega
    · simp at digit
  rw [← Char.ofNat_toNat c]
  exact ofNat_mem_digits c.toNat range.2 range.1

theorem escapeChar_digit : ∀ guarded, ∀ c ∈ ['0', '1', '2', '3', '4', '5', '6', '7'],
    escapeChar guarded c = [c] := by
  simp [escapeChar]

theorem escapeChar_opener : ∀ guarded, ∀ c ∈ ['\x7b', '@', '$'], escapeChar guarded c = [c] := by
  simp [escapeChar]

/-- An escape is its character, or starts with a backslash. -/
theorem escapeChar_cases (guarded : Bool) (c : Char) :
    escapeChar guarded c = [c] ∨ ∃ tail, escapeChar guarded c = '\\' :: tail := by
  have escape := escapeChar_spec guarded c
  generalize escapeChar guarded c = escaped at escape
  cases escape with
  | plain => exact Or.inl rfl
  | named | nul | hex => exact Or.inr ⟨_, rfl⟩

/-- The first character decides as before whether an interpolation would start. -/
theorem opensInterpolation_escapeAll (text : Text) :
    opensInterpolation (escapeAll text ++ ['"']) = opensInterpolation text := by
  cases text with
  | nil => rfl
  | cons c rest =>
      rw [escapeAll]
      by_cases opener : c ∈ ['\x7b', '@', '$']
      · rw [escapeChar_opener _ c opener]
        rfl
      · have closed : opensInterpolation (c :: rest) = false := by
          simpa [opensInterpolation, and_assoc] using opener
        rw [closed]
        rcases escapeChar_cases (opensInterpolation rest) c with plain | ⟨tail, escaped⟩
        · rw [plain]
          exact closed
        · rw [escaped]
          rfl

/-- The octal digits at the front stay digits, and the rest is escaped as before. -/
theorem digitsOf_escapeAll (most : Nat) (text : Text) :
    digitsOf 8 most (escapeAll text ++ ['"']) = digitsOf 8 most text ∧
      (escapeAll text ++ ['"']).drop (digitsOf 8 most text).length =
        escapeAll (text.drop (digitsOf 8 most text).length) ++ ['"'] := by
  induction most generalizing text with
  | zero => simp [digitsOf]
  | succ most ih =>
      cases text with
      | nil => exact ⟨by simp [digitsOf, escapeAll]; decide, by simp [digitsOf]⟩
      | cons c rest =>
          rw [escapeAll]
          by_cases digit : isDigitOf 8 c = true
          · obtain ⟨digits, after⟩ := ih rest
            have more : digitsOf 8 (most + 1) (c :: rest) = c :: digitsOf 8 most rest := by
              simp [digitsOf, digit]
            rw [escapeChar_digit _ c (isDigitOf_eight digit), more]
            refine ⟨?_, after⟩
            rw [← digits]
            simp [digitsOf, digit]
          · have none : digitsOf 8 (most + 1) (c :: rest) = [] := by simp [digitsOf, digit]
            rw [none]
            refine ⟨?_, rfl⟩
            rcases escapeChar_cases (opensInterpolation rest) c with plain | ⟨tail, escaped⟩
            · simp [plain, digitsOf, digit]
            · have notDigit : isDigitOf 8 '\\' = false := by decide
              simp [escaped, digitsOf, notDigit]

/-- What the displayed text reads as: a NUL takes the octal digits after it. -/
def reread (octal : Nat) : Text → Text
  | [] => []
  | c :: rest =>
      if c = '\x00' then
        let digits := digitsOf 8 (octal - 1) rest
        Char.ofNat (numberOf 8 digits) :: reread octal (rest.drop digits.length)
      else c :: reread octal rest
termination_by text => text.length
decreasing_by
  · rw [List.length_drop, List.length_cons]
    omega
  · exact Nat.lt_succ_self _

theorem reread_nul (octal : Nat) (rest : Text) : reread octal ('\x00' :: rest) =
    Char.ofNat (numberOf 8 (digitsOf 8 (octal - 1) rest)) ::
      reread octal (rest.drop (digitsOf 8 (octal - 1) rest).length) := by
  rw [reread, if_pos rfl]

theorem reread_cons {octal : Nat} {c : Char} (notNul : c ≠ '\x00') (rest : Text) :
    reread octal (c :: rest) = c :: reread octal rest := by
  rw [reread, if_neg notNul]

/-- A zero in front and at most two digits after it are a byte below `0x40`. -/
theorem numberOf_zero_cons {digits : Text} (octal : ∀ c ∈ digits, isDigitOf 8 c = true)
    (short : digits.length ≤ 2) :
    numberOf 8 ('0' :: digits) = numberOf 8 digits ∧ numberOf 8 digits < 0x80 := by
  have digit {c : Char} (isOctal : isDigitOf 8 c = true) : ∃ d < 8, digitValue c = some d := by
    simp only [isDigitOf, Option.any_eq_true, decide_eq_true_eq] at isOctal
    obtain ⟨d, found, small⟩ := isOctal
    exact ⟨d, small, found⟩
  refine ⟨rfl, ?_⟩
  match digits with
  | [] => decide
  | [a] =>
      obtain ⟨d, small, found⟩ := digit (octal a (by simp))
      simp only [numberOf, List.filterMap_cons, found, List.filterMap_nil, value_cons, value_nil]
      omega
  | [a, b] =>
      obtain ⟨d, small, found⟩ := digit (octal a (by simp))
      obtain ⟨e, small', found'⟩ := digit (octal b (by simp))
      simp only [numberOf, List.filterMap_cons, found, found', List.filterMap_nil, value_cons,
        value_nil]
      omega
  | a :: b :: c :: rest =>
      simp only [List.length_cons] at short
      omega

/-- An octal escape of the NUL takes the digits that follow. -/
theorem readBody_nul {octal : Nat} (positive : 0 < octal) (ruby : octal ≤ 3) (rest : Text) :
    readBody octal ('\\' :: '0' :: (escapeAll rest ++ ['"'])) =
      (readBody octal (escapeAll (rest.drop (digitsOf 8 (octal - 1) rest).length) ++ ['"'])).map
        (Char.ofNat (numberOf 8 (digitsOf 8 (octal - 1) rest)) :: ·) := by
  obtain ⟨most, rfl⟩ := Nat.exists_eq_succ_of_ne_zero (Nat.ne_of_gt positive)
  obtain ⟨same, after⟩ := digitsOf_escapeAll most rest
  have zero : isDigitOf 8 '0' = true := by decide
  have digits : digitsOf 8 (most + 1) ('0' :: (escapeAll rest ++ ['"'])) =
      '0' :: digitsOf 8 most rest := by
    rw [← same]
    simp [digitsOf, zero]
  have short : (digitsOf 8 most rest).length ≤ 2 := by
    have bound := (List.takeWhile_sublist (isDigitOf 8) (l := rest.take most)).length_le
    rw [List.length_take] at bound
    exact Nat.le_trans bound (by omega)
  have all : ∀ c ∈ digitsOf 8 most rest, isDigitOf 8 c = true := fun c mem =>
    List.mem_takeWhile_imp mem
  obtain ⟨number, small⟩ := numberOf_zero_cons all short
  have reads : readEscape (most + 1) ('0' :: (escapeAll rest ++ ['"'])) =
      some ([Char.ofNat (numberOf 8 (digitsOf 8 most rest))],
        escapeAll (rest.drop (digitsOf 8 most rest).length) ++ ['"']) := by
    rw [readEscape, zero, if_pos rfl, readNumber, digits, if_neg]
    · rw [number, List.length_cons, List.drop_succ_cons, after]
    · rintro (empty | large)
      · nomatch empty
      · exact Nat.not_le_of_lt (number ▸ small) large
  exact readBody_escape reads

/-- The displayed text is one literal without interpolation, whatever the string. -/
theorem readQuoted_rubyInspectDq {octal : Nat} (positive : 0 < octal) (ruby : octal ≤ 3)
    (s : Text) : readQuoted octal (rubyInspectDq s) = some (reread octal s) := by
  rw [rubyInspectDq, List.cons_append, readQuoted, if_pos rfl]
  induction s using reread.induct octal with
  | case1 => rw [reread]; exact readBody_quote octal
  | case2 rest digits ih =>
      rw [reread_nul, escapeAll]
      have nul : escapeChar (opensInterpolation rest) '\x00' = ['\\', '0'] := rfl
      rw [nul]
      rw [List.append_assoc]
      exact (readBody_nul positive ruby rest).trans (ih ▸ rfl)
  | case3 c rest notNul ih =>
      rw [reread_cons notNul, escapeAll, List.append_assoc,
        readBody_escapeChar notNul (opensInterpolation_escapeAll rest).symm, ih]
      rfl

/-! ## Strings that are read back -/

/-- A NUL stands directly before an octal digit. -/
def NulBeforeOctal (s : Text) : Prop :=
  ∃ before digit after, isDigitOf 8 digit = true ∧ s = before ++ '\x00' :: digit :: after

/-- The displayed text is one literal without interpolation that yields the string. -/
def ReadsBack (s : Text) : Prop :=
  readLiteral (rubyInspectDq s) = some s

/-- Escapes of one digit leave the following characters alone. -/
theorem reread_one (s : Text) : reread 1 s = s := by
  induction s using reread.induct 1 with
  | case1 => rw [reread]
  | case2 rest digits ih =>
      rw [reread_nul]
      exact congrArg _ ih
  | case3 c rest notNul ih => rw [reread_cons notNul, ih]

theorem length_reread_le (octal : Nat) (s : Text) : (reread octal s).length ≤ s.length := by
  induction s using reread.induct octal with
  | case1 => rw [reread]
  | case2 rest digits ih =>
      rw [reread_nul, List.length_cons, List.length_cons]
      rw [List.length_drop] at ih
      exact Nat.succ_le_succ (Nat.le_trans ih (Nat.sub_le _ _))
  | case3 c rest notNul ih =>
      rw [reread_cons notNul, List.length_cons, List.length_cons]
      exact Nat.succ_le_succ ih

theorem nulBeforeOctal_cons_iff {c : Char} {rest : Text} : NulBeforeOctal (c :: rest) ↔
    (c = '\x00' ∧ ∃ digit after, isDigitOf 8 digit = true ∧ rest = digit :: after) ∨
      NulBeforeOctal rest := by
  constructor
  · rintro ⟨before, digit, after, isDigit, split⟩
    cases before with
    | nil =>
        injection split with head tail
        exact Or.inl ⟨head, digit, after, isDigit, tail⟩
    | cons first before =>
        injection split with head tail
        exact Or.inr ⟨before, digit, after, isDigit, tail⟩
  · rintro (⟨rfl, digit, after, isDigit, rfl⟩ | ⟨before, digit, after, isDigit, rfl⟩)
    · exact ⟨[], digit, after, isDigit, rfl⟩
    · exact ⟨c :: before, digit, after, isDigit, rfl⟩

/-- Longer escapes leave the string alone unless a NUL stands before an octal digit. -/
theorem reread_eq_self_iff {octal : Nat} (several : 1 < octal) (s : Text) :
    reread octal s = s ↔ ¬NulBeforeOctal s := by
  obtain ⟨most, rfl⟩ := Nat.exists_eq_add_of_lt several
  induction s with
  | nil => simp [reread, NulBeforeOctal]
  | cons c rest ih =>
      rw [nulBeforeOctal_cons_iff, not_or, ← ih]
      by_cases nul : c = '\x00'
      · subst nul
        rw [reread_nul]
        cases rest with
        | nil => simp [digitsOf, reread, numberOf]
        | cons digit after =>
            by_cases isDigit : isDigitOf 8 digit = true
            · have taken : digitsOf 8 (1 + most + 1 - 1) (digit :: after) =
                  digit :: digitsOf 8 most after := by
                have count : 1 + most + 1 - 1 = most + 1 := by omega
                simp [count, digitsOf, isDigit]
              constructor
              · intro same
                injection same with _ tail
                have long := congrArg List.length tail
                have short := length_reread_le (1 + most + 1)
                  ((digit :: after).drop (digit :: digitsOf 8 most after).length)
                rw [taken] at long
                rw [long, List.length_drop, List.length_cons, List.length_cons] at short
                omega
              · rintro ⟨noDigit, -⟩
                exact absurd ⟨rfl, digit, after, isDigit, rfl⟩ noDigit
            · have none : digitsOf 8 (1 + most + 1 - 1) (digit :: after) = [] := by
                have count : 1 + most + 1 - 1 = most + 1 := by omega
                simp [count, digitsOf, isDigit]
              rw [none]
              constructor
              · intro same
                injection same with _ tail
                refine ⟨?_, tail⟩
                rintro ⟨-, other, others, otherDigit, split⟩
                injection split with head _
                exact isDigit (head ▸ otherDigit)
              · rintro ⟨-, same⟩
                exact congrArg _ same
      · rw [reread_cons nul]
        simp [nul]

/-! ## What the display tells apart -/

theorem rubyInspectDq_injective : Function.Injective rubyInspectDq := by
  intro s t same
  have sReads := readQuoted_rubyInspectDq Nat.one_pos (by decide) s
  have tReads := readQuoted_rubyInspectDq Nat.one_pos (by decide) t
  rw [same, tReads, reread_one, reread_one, Option.some.injEq] at sReads
  exact sReads.symm

/-- A name that starts with a quote is displayed in quotes. -/
theorem bareSymname_quote (rest : Text) : bareSymname ('"' :: rest) = false := by
  have notOperator : '"' :: rest ∉ operatorSymnames := by
    simp [operatorSymnames]
  rw [bareSymname, if_neg notOperator]
  · rfl
  · exact fun other => absurd other (by decide)
  · exact fun _ other => absurd other (by decide)
  · exact fun other => absurd other (by decide)

theorem symbolInspect_injective : Function.Injective symbolInspect := by
  intro s t same
  have apart {name other : Text} (bare : bareSymname name = true) :
      ':' :: name ≠ ':' :: rubyInspectDq other := by
    intro same
    injection same with _ tail
    rw [tail, rubyInspectDq, List.cons_append, bareSymname_quote] at bare
    cases bare
  unfold symbolInspect at same
  split_ifs at same with sBare tBare tBare
  · injection same
  · exact absurd same (apart sBare)
  · exact absurd same.symm (apart tBare)
  · injection same with _ quoted
    exact rubyInspectDq_injective quoted

/-- The constants that hold a text. -/
def Scalar.IsText (scalar : Scalar) : Prop :=
  (∃ value, scalar = .str value) ∨ ∃ name, scalar = .sym name

theorem symbolInspect_ne_rubyInspectDq (name value : Text) :
    symbolInspect name ≠ rubyInspectDq value := by
  unfold symbolInspect rubyInspectDq
  split_ifs <;> simp

theorem scalarInspect_injective {scalar other : Scalar} (isText : scalar.IsText)
    (isText' : other.IsText) (same : scalarInspect scalar = scalarInspect other) :
    scalar = other := by
  rcases isText with ⟨value, rfl⟩ | ⟨name, rfl⟩
  · rcases isText' with ⟨value', rfl⟩ | ⟨name', rfl⟩
    · exact congrArg _ (rubyInspectDq_injective same)
    · exact absurd same.symm (symbolInspect_ne_rubyInspectDq name' value)
  · rcases isText' with ⟨value', rfl⟩ | ⟨name', rfl⟩
    · exact absurd same (symbolInspect_ne_rubyInspectDq name value')
    · exact congrArg _ (symbolInspect_injective same)

/-- A displayed string is read back exactly when no NUL stands before an octal
digit, and the display tells strings and symbols apart in any case. -/
theorem readsBack_iff (s : Text) : (ReadsBack s ↔ ¬NulBeforeOctal s) ∧
    ∀ scalar other : Scalar, scalar.IsText → other.IsText →
      scalarInspect scalar = scalarInspect other → scalar = other := by
  constructor
  · have reads : readLiteral (rubyInspectDq s) = some (reread 3 s) :=
      readQuoted_rubyInspectDq (by decide) (by decide) s
    rw [ReadsBack, reads, Option.some.injEq]
    exact reread_eq_self_iff (by decide) s
  · intro scalar other isText isText' same
    exact scalarInspect_injective isText isText' same

/-- A NUL and the digit one are displayed as one octal escape. -/
theorem not_readsBack_nulOne : readLiteral (rubyInspectDq ['\x00', '1']) = some ['\x01'] ∧
    ¬ReadsBack ['\x00', '1'] := by
  have reads : readLiteral (rubyInspectDq ['\x00', '1']) = some ['\x01'] := by
    rw [readLiteral, readQuoted_rubyInspectDq (by decide) (by decide), reread_nul]
    have digits : digitsOf 8 (3 - 1) ['1'] = ['1'] := by decide
    have after : ['1'].drop ['1'].length = [] := rfl
    rw [digits, after, reread]
    rfl
  refine ⟨reads, ?_⟩
  rw [ReadsBack, reads]
  decide

end Rigor.Types
