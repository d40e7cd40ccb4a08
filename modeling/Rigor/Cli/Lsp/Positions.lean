import Mathlib.Data.Prod.Lex
import Mathlib.Order.Bounds.Basic
import Rigor.Cli.Lsp.Completion

/-!
# Positions and offsets

`offset_to_position` against `position_to_offset`.  A text is cut at a cursor into the lines before
it, the part of its own line before it, and the rest; both functions are computed from the cut.
-/

namespace Rigor.Cli.Lsp

open Rigor.Rust Rigor.Text

/-! ## The scan -/

/-- The loop over the bytes: the number of the line and where it begins. -/
def scanLines (offset : Nat) : List UInt8 → Nat → Nat → Nat → Checked (Nat × Nat)
  | [], _, line, start => .ok (line, start)
  | b :: bytes, i, line, start =>
      if i ≥ offset then .ok (line, start)
      else if b = '\n'.val.toUInt8 then do
        scanLines offset bytes (i + 1) (← addU32 line 1) (i + 1)
      else scanLines offset bytes (i + 1) line start

/-- The sum of the UTF-16 lengths, on `u32`. -/
def sumUnits : Text → Nat → Checked Nat
  | [], count => .ok count
  | c :: text, count => do sumUnits text (← addU32 count (utf16Size c))

def offsetToPosition (text : Text) (offset : Nat) : Checked Position := do
  let offset := min offset (len text)
  let (line, start) ← scanLines offset (bytes text) 0 0 0
  let character ← sumUnits (← slice text start offset) 0
  return ⟨UInt32.ofNat line, UInt32.ofNat character⟩

/-! ## Cursors -/

/-- Line first, then character. -/
def Position.key (pos : Position) : Nat ×ₗ Nat :=
  toLex (pos.line.toNat, pos.character.toNat)

theorem Position.key_injective : Function.Injective Position.key := by
  intro a b same
  have parts : (a.line.toNat, a.character.toNat) = (b.line.toNat, b.character.toNat) := same
  rw [Prod.mk.injEq, UInt32.toNat_inj, UInt32.toNat_inj] at parts
  cases a
  cases b
  rw [Position.mk.injEq]
  exact parts

instance : LinearOrder Position :=
  LinearOrder.lift' Position.key Position.key_injective

theorem Position.lt_iff {a b : Position} : a < b ↔
    a.line.toNat < b.line.toNat ∨
      a.line.toNat = b.line.toNat ∧ a.character.toNat < b.character.toNat :=
  Prod.Lex.toLex_lt_toLex

theorem Position.le_iff {a b : Position} : a ≤ b ↔
    a.line.toNat < b.line.toNat ∨
      a.line.toNat = b.line.toNat ∧ a.character.toNat ≤ b.character.toNat :=
  Prod.Lex.toLex_le_toLex

/-- The number of bytes before a character, or of the whole text. -/
def IsBoundary (text : Text) (offset : Nat) : Prop :=
  ∃ front back, front ++ back = text ∧ len front = offset

/-- Nothing, or whole lines. -/
def WholeLines (before : Text) : Prop :=
  before = [] ∨ ['\n'] <:+ before

/-- A text cut at a cursor. -/
structure Cursor (text : Text) where
  before : Text
  line : Text
  after : Text
  whole : before ++ (line ++ after) = text
  wholeLines : WholeLines before
  plain : '\n' ∉ line

def Cursor.offset {text : Text} (cursor : Cursor text) : Nat :=
  len cursor.before + len cursor.line

def Cursor.position {text : Text} (cursor : Cursor text) : Position :=
  ⟨UInt32.ofNat (cursor.before.count '\n'), UInt32.ofNat (units cursor.line)⟩

theorem wholeLines_of_cons {c : Char} {before : Text} (lines : WholeLines (c :: before)) :
    WholeLines before ∧ (before = [] → c = '\n') := by
  rcases lines with empty | ⟨front, same⟩
  · nomatch empty
  · cases front with
    | nil =>
        obtain ⟨rfl, rfl⟩ := List.cons.inj same
        exact ⟨.inl rfl, fun _ => rfl⟩
    | cons d front =>
        obtain ⟨-, rfl⟩ := List.cons.inj same
        exact ⟨.inr ⟨front, rfl⟩, fun empty => by simp at empty⟩

theorem wholeLines_cons {c : Char} {before : Text} (lines : WholeLines before)
    (last : before = [] → c = '\n') : WholeLines (c :: before) := by
  rcases lines with rfl | ⟨front, rfl⟩
  · rw [last rfl]
    exact .inr List.suffix_rfl
  · exact .inr ⟨c :: front, rfl⟩

theorem wholeLines_rdropWhile (front : Text) : WholeLines (front.rdropWhile (· ≠ '\n')) := by
  by_cases empty : front.rdropWhile (· ≠ '\n') = []
  · exact .inl empty
  · have last : (front.rdropWhile (· ≠ '\n')).getLast empty = '\n' := by
      simpa using List.rdropWhile_last_not _ _ empty
    have whole := List.dropLast_concat_getLast empty
    rw [last] at whole
    exact .inr ⟨_, whole⟩

/-- Every boundary is the offset of a cursor. -/
theorem exists_cursor {text : Text} {offset : Nat} (boundary : IsBoundary text offset) :
    ∃ cursor : Cursor text, cursor.offset = offset := by
  rcases boundary with ⟨front, back, whole, rfl⟩
  have parts : front.rdropWhile (· ≠ '\n') ++ front.rtakeWhile (· ≠ '\n') = front :=
    List.rdropWhile_append_rtakeWhile
  refine ⟨⟨front.rdropWhile (· ≠ '\n'), front.rtakeWhile (· ≠ '\n'), back, ?_, ?_, ?_⟩, ?_⟩
  · rw [← List.append_assoc, parts, whole]
  · exact wholeLines_rdropWhile front
  · intro mem
    exact absurd (List.mem_rtakeWhile_imp mem) (by decide)
  · rw [Cursor.offset, ← len_append, parts]

theorem Cursor.isBoundary {text : Text} (cursor : Cursor text) :
    IsBoundary text cursor.offset := by
  refine ⟨cursor.before ++ cursor.line, cursor.after, ?_, len_append _ _⟩
  rw [List.append_assoc]
  exact cursor.whole

/-! ## From an offset to the position -/

theorem scanLines_skip {skipped : List UInt8} (absent : '\n'.val.toUInt8 ∉ skipped)
    (rest : List UInt8) {offset i : Nat} (inside : i + skipped.length ≤ offset) (line start : Nat) :
    scanLines offset (skipped ++ rest) i line start =
      scanLines offset rest (i + skipped.length) line start := by
  induction skipped generalizing i with
  | nil => rfl
  | cons b skipped ih =>
      rw [List.mem_cons, not_or] at absent
      rw [List.length_cons] at inside ⊢
      rw [List.cons_append, scanLines, if_neg (by omega), if_neg (Ne.symm absent.1),
        ih absent.2 (by omega)]
      congr 1
      omega

theorem scanLines_char {c : Char} (other : c ≠ '\n') (rest : List UInt8) {offset i : Nat}
    (inside : i + c.utf8Size ≤ offset) (line start : Nat) :
    scanLines offset (String.utf8EncodeChar c ++ rest) i line start =
      scanLines offset rest (i + c.utf8Size) line start := by
  have absent : '\n'.val.toUInt8 ∉ String.utf8EncodeChar c := by
    rw [mem_utf8EncodeChar_iff (by decide)]
    exact other
  rw [← String.length_utf8EncodeChar] at inside ⊢
  exact scanLines_skip absent rest inside line start

theorem scanLines_newline (rest : List UInt8) {offset i line : Nat} (inside : i < offset)
    (small : line + 1 < 2 ^ 32) (start : Nat) :
    scanLines offset (String.utf8EncodeChar '\n' ++ rest) i line start =
      scanLines offset rest (i + 1) (line + 1) (i + 1) := by
  have single : String.utf8EncodeChar '\n' = ['\n'.val.toUInt8] := by decide
  rw [single, List.singleton_append, scanLines, if_neg (Nat.not_le.mpr inside), if_pos rfl, addU32,
    if_pos small]
  rfl

/-- The scan over whole lines counts them. -/
theorem scanLines_wholeLines {before : Text} (lines : WholeLines before) (rest : Text)
    {offset i line : Nat} (inside : i + len before ≤ offset)
    (small : line + before.count '\n' < 2 ^ 32) {start : Nat} (begin_ : before = [] → start = i) :
    scanLines offset (bytes (before ++ rest)) i line start =
      scanLines offset (bytes rest) (i + len before) (line + before.count '\n')
        (i + len before) := by
  induction before generalizing i line start with
  | nil =>
      rw [begin_ rfl]
      rfl
  | cons c before ih =>
      rcases wholeLines_of_cons lines with ⟨inner, last⟩
      rw [len_cons] at inside ⊢
      rw [List.cons_append, bytes_cons]
      by_cases newline : c = '\n'
      · subst newline
        have size : '\n'.utf8Size = 1 := rfl
        rw [List.count_cons_self] at small ⊢
        rw [scanLines_newline _ (by omega) (by omega), size,
          ih inner (by omega) (by omega) (fun _ => rfl)]
        congr 1 <;> omega
      · rw [List.count_cons_of_ne newline] at small ⊢
        rw [scanLines_char newline _ (by omega), ih inner (by omega) small
          (fun empty => absurd (last empty) newline)]
        congr 1 <;> omega

/-- The scan stops at the offset. -/
theorem scanLines_stop (bytes : List UInt8) (offset line start : Nat) :
    scanLines offset bytes offset line start = .ok (line, start) := by
  cases bytes with
  | nil => rfl
  | cons b bytes => rw [scanLines, if_pos (Nat.le_refl _)]

/-- The part of a line before the offset changes nothing. -/
theorem scanLines_line {line : Text} (plain : '\n' ∉ line) (rest : Text) {offset i : Nat}
    (inside : i + len line = offset) (count start : Nat) :
    scanLines offset (bytes (line ++ rest)) i count start = .ok (count, start) := by
  induction line generalizing i with
  | nil =>
      rw [len_nil, Nat.add_zero] at inside
      rw [inside]
      exact scanLines_stop _ _ _ _
  | cons c line ih =>
      rw [List.mem_cons, not_or] at plain
      rw [len_cons] at inside
      rw [List.cons_append, bytes_cons, scanLines_char (Ne.symm plain.1) _ (by omega)]
      exact ih plain.2 (by omega)

theorem utf16Size_le (c : Char) : utf16Size c ≤ c.utf8Size := by
  have positive := c.utf8Size_pos
  rw [utf16Size]
  split
  · exact positive
  · rename_i large
    have several : c.utf8Size ≠ 1 := by
      rw [Ne, Char.utf8Size_eq_one_iff, UInt32.le_iff_toNat_le]
      rw [UInt32.lt_iff_toNat_lt] at large
      have low : (0x7f : UInt32).toNat < (0x10000 : UInt32).toNat := by decide
      omega
    omega

theorem units_le_len (text : Text) : units text ≤ len text := by
  induction text with
  | nil => exact Nat.le_refl 0
  | cons c text ih =>
      rw [units, List.map_cons, List.sum_cons, len_cons]
      exact Nat.add_le_add (utf16Size_le c) ih

theorem count_le_len (c : Char) (text : Text) : text.count c ≤ len text := by
  induction text with
  | nil => exact Nat.le_refl 0
  | cons d text ih =>
      have positive := d.utf8Size_pos
      rw [List.count_cons, len_cons]
      split <;> omega

theorem sumUnits_eq {text : Text} {count : Nat} (small : count + units text < 2 ^ 32) :
    sumUnits text count = .ok (count + units text) := by
  induction text generalizing count with
  | nil => rfl
  | cons c text ih =>
      have split : units (c :: text) = utf16Size c + units text := List.sum_cons
      rw [split] at small ⊢
      rw [sumUnits, addU32, if_pos (by omega), ← Nat.add_assoc]
      exact ih (by omega)

theorem Cursor.len_le {text : Text} (cursor : Cursor text) :
    cursor.offset ≤ len text := by
  have total := congrArg len cursor.whole
  rw [len_append, len_append] at total
  rw [Cursor.offset]
  omega

/-- A cursor's offset has the cursor's position. -/
theorem Cursor.offsetToPosition_eq {text : Text} (small : len text < 2 ^ 32)
    (cursor : Cursor text) : offsetToPosition text cursor.offset = .ok cursor.position := by
  have within := cursor.len_le
  have parts : cursor.offset = len cursor.before + len cursor.line := rfl
  have lines := count_le_len '\n' cursor.before
  have columns := units_le_len cursor.line
  have scan : scanLines cursor.offset (bytes text) 0 0 0 =
      .ok (cursor.before.count '\n', len cursor.before) := by
    have counted := scanLines_wholeLines cursor.wholeLines (cursor.line ++ cursor.after)
      (by omega : 0 + len cursor.before ≤ cursor.offset)
      (by omega : 0 + cursor.before.count '\n' < 2 ^ 32) (fun _ => rfl)
    rw [cursor.whole, Nat.zero_add, Nat.zero_add] at counted
    rw [counted]
    exact scanLines_line cursor.plain _ rfl _ _
  have cut : slice text (len cursor.before) cursor.offset = .ok cursor.line := by
    have middle := slice_append cursor.before cursor.line cursor.after
    rw [List.append_assoc, cursor.whole] at middle
    exact middle
  rw [offsetToPosition, Nat.min_eq_left within, scan]
  simp only [bind, Except.bind, cut]
  rw [sumUnits_eq (by omega), Nat.zero_add]
  rfl

/-! ## From a position to the offset -/

theorem atLine_wholeLines {before : Text} (lines : WholeLines before) (rest : Text) :
    atLine (before.count '\n') (before ++ rest) = some (before, rest) := by
  induction before with
  | nil => cases rest <;> rfl
  | cons c before ih =>
      rcases wholeLines_of_cons lines with ⟨inner, last⟩
      by_cases newline : c = '\n'
      · rw [newline, List.count_cons_self, List.cons_append, atLine, if_pos rfl, ih inner]
        rfl
      · have nonempty : before ≠ [] := fun empty => newline (last empty)
        rcases inner with empty | ⟨front, same⟩
        · exact absurd empty nonempty
        · obtain ⟨n, total⟩ : ∃ n, before.count '\n' = n + 1 := by
            rw [← same, List.count_append, List.count_singleton_self]
            exact ⟨_, rfl⟩
          rw [List.count_cons_of_ne newline, total, List.cons_append, atLine, if_neg newline,
            ← total, ih (.inr ⟨front, same⟩)]
          rfl

/-- What stands before a line is so many whole lines. -/
theorem wholeLines_of_atLine {line : Nat} {text front back : Text}
    (found : atLine line text = some (front, back)) :
    WholeLines front ∧ front.count '\n' = line := by
  induction text generalizing line front back with
  | nil =>
      cases line with
      | zero =>
          obtain ⟨rfl, -⟩ := Prod.mk.inj (Option.some.inj found)
          exact ⟨.inl rfl, rfl⟩
      | succ line => nomatch found
  | cons c text ih =>
      cases line with
      | zero =>
          obtain ⟨rfl, -⟩ := Prod.mk.inj (Option.some.inj found)
          exact ⟨.inl rfl, rfl⟩
      | succ line =>
          rcases Option.map_eq_some_iff.mp found with ⟨⟨inner, rest⟩, before, same⟩
          obtain ⟨rfl, -⟩ := Prod.mk.inj same
          rcases ih before with ⟨lines, count⟩
          by_cases newline : c = '\n'
          · rw [if_pos newline] at count
            rw [newline, List.count_cons_self, count]
            exact ⟨wholeLines_cons lines fun _ => rfl, rfl⟩
          · rw [if_neg newline] at count
            rw [List.count_cons_of_ne newline, count]
            refine ⟨wholeLines_cons lines fun empty => ?_, rfl⟩
            rw [empty, List.count_nil] at count
            nomatch count

theorem atLine_eq_none_iff {line : Nat} {text : Text} :
    atLine line text = none ↔ text.count '\n' < line := by
  induction text generalizing line with
  | nil => cases line <;> simp [atLine]
  | cons c text ih =>
      cases line with
      | zero => simp [atLine]
      | succ line =>
          rw [atLine, Option.map_eq_none_iff, ih]
          by_cases newline : c = '\n'
          · rw [if_pos newline, newline, List.count_cons_self, Nat.succ_lt_succ_iff]
          · rw [if_neg newline, List.count_cons_of_ne newline]

@[simp]
theorem units_cons (c : Char) (text : Text) : units (c :: text) = utf16Size c + units text :=
  List.sum_cons

theorem units_append (a b : Text) : units (a ++ b) = units a + units b := by
  rw [units, List.map_append, List.sum_append]
  rfl

theorem utf16Size_pos (c : Char) : 0 < utf16Size c := by
  rw [utf16Size]
  split <;> decide

/-- All of the characters before a unit are found. -/
theorem column_units (a b : Text) (count : Nat) :
    column (count + units a) (a ++ b) count = a := by
  induction a generalizing count with
  | nil =>
      cases b with
      | nil => rfl
      | cons c b => exact if_pos (Nat.le_refl _)
  | cons c a ih =>
      have positive := utf16Size_pos c
      rw [units_cons, List.cons_append, column, if_neg (by omega), ← Nat.add_assoc, ih]

/-- The column is reached, or the line ends before. -/
theorem column_reaches (character : Nat) (line : Text) (count : Nat) :
    character ≤ count + units (column character line count) ∨
      column character line count = line := by
  induction line generalizing count with
  | nil => exact .inr rfl
  | cons c line ih =>
      rw [column]
      by_cases reached : character ≤ count
      · rw [if_pos reached]
        exact .inl (Nat.le_trans reached (Nat.le_add_right _ _))
      · rw [if_neg reached, units_cons, ← Nat.add_assoc, List.cons.injEq]
        exact (ih (count + utf16Size c)).imp_right (fun same => ⟨rfl, same⟩)

/-- No shorter part of the line reaches the column. -/
theorem column_begins {character count : Nat} {line front : Text} (begins : front <+: line)
    (reached : character ≤ count + units front) : column character line count <+: front := by
  induction line generalizing count front with
  | nil => exact List.nil_prefix
  | cons c line ih =>
      rw [column]
      by_cases already : character ≤ count
      · rw [if_pos already]
        exact List.nil_prefix
      · rw [if_neg already]
        cases front with
        | nil => exact absurd reached already
        | cons d front =>
            rcases List.cons_prefix_cons.mp begins with ⟨rfl, inner⟩
            rw [units_cons, ← Nat.add_assoc] at reached
            exact (List.prefix_cons_inj d).mpr (ih inner reached)

theorem lineOf_append {line : Text} (plain : '\n' ∉ line) (rest : Text) :
    lineOf (line ++ rest) = line ++ lineOf rest := by
  apply List.takeWhile_append_of_pos
  intro c mem
  rw [decide_eq_true_eq]
  rintro rfl
  exact plain mem

theorem newline_notMem_lineOf (text : Text) : '\n' ∉ lineOf text := by
  intro mem
  exact absurd (List.mem_takeWhile_imp mem) (by decide)

theorem not_counterOverflows {line : Text} (small : len line < 2 ^ 32) (character : Nat) :
    ¬ CounterOverflows character line 0 := by
  rintro ⟨front, c, back, rfl, -, large⟩
  have bound := units_le_len (front ++ c :: back)
  rw [units_append, units_cons] at bound
  omega

theorem len_le_of_begins {a b : Text} (begins : a <+: b) : len a ≤ len b := by
  rcases begins with ⟨rest, rfl⟩
  rw [len_append]
  exact Nat.le_add_right _ _

/-- The position leads to the cursor in its line that is not before it, or to the line's end. -/
theorem exists_cursor_of_atLine {text front back : Text} (small : len text < 2 ^ 32)
    {pos : Position} (found : atLine pos.line.toNat text = some (front, back)) :
    ∃ cursor : Cursor text, cursor.before = front ∧
      cursor.line = column pos.character.toNat (lineOf back) 0 ∧
      positionToOffset text pos = .ok (some cursor.offset) := by
  have inLine := prefixOf_column pos.character.toNat (lineOf back) 0
  rcases inLine.trans (prefixOf_lineOf back) with ⟨rest, whole⟩
  refine ⟨⟨front, column pos.character.toNat (lineOf back) 0, rest, ?_, ?_, ?_⟩, rfl, rfl, ?_⟩
  · rw [whole]
    exact append_of_atLine found
  · exact (wholeLines_of_atLine found).1
  · exact fun mem => newline_notMem_lineOf back (inLine.subset mem)
  · have total := congrArg len (append_of_atLine found)
    have fits : ¬ CounterOverflows pos.character.toNat (lineOf back) 0 := by
      apply not_counterOverflows
      rw [len_append] at total
      have inText := len_le_of_begins (prefixOf_lineOf back)
      omega
    rw [positionToOffset_eq found, advance_eq _ fits]
    rfl

/-! ## The order of cursors -/

section Order

variable {text : Text}

theorem Cursor.position_line (small : len text < 2 ^ 32) (cursor : Cursor text) :
    cursor.position.line.toNat = cursor.before.count '\n' := by
  have within := cursor.len_le
  have lines := count_le_len '\n' cursor.before
  have parts : cursor.offset = len cursor.before + len cursor.line := rfl
  have bound : cursor.before.count '\n' < 2 ^ 32 := by omega
  exact UInt32.toNat_ofNat_of_lt bound

theorem Cursor.position_character (small : len text < 2 ^ 32) (cursor : Cursor text) :
    cursor.position.character.toNat = units cursor.line := by
  have within := cursor.len_le
  have columns := units_le_len cursor.line
  have parts : cursor.offset = len cursor.before + len cursor.line := rfl
  have bound : units cursor.line < 2 ^ 32 := by omega
  exact UInt32.toNat_ofNat_of_lt bound

theorem Cursor.atLine_before (cursor : Cursor text) :
    atLine (cursor.before.count '\n') text = some (cursor.before, cursor.line ++ cursor.after) := by
  have found := atLine_wholeLines cursor.wholeLines (cursor.line ++ cursor.after)
  rwa [cursor.whole] at found

theorem Cursor.line_begins (cursor : Cursor text) :
    cursor.line <+: lineOf (cursor.line ++ cursor.after) := by
  rw [lineOf_append cursor.plain]
  exact List.prefix_append _ _

/-- Of two beginnings of a text the one with fewer bytes begins the other. -/
theorem begins_of_len_le {a b : Text} (first : a <+: text) (second : b <+: text)
    (shorter : len a ≤ len b) : a <+: b := by
  rcases List.prefix_or_prefix_of_prefix first second with begins | ⟨rest, rfl⟩
  · exact begins
  · rw [len_append] at shorter
    cases rest with
    | nil =>
        refine ⟨[], ?_⟩
        rw [List.append_nil, List.append_nil]
    | cons c rest =>
        have positive := c.utf8Size_pos
        rw [len_cons] at shorter
        omega

theorem Cursor.front_begins (cursor : Cursor text) : cursor.before ++ cursor.line <+: text := by
  refine ⟨cursor.after, ?_⟩
  rw [List.append_assoc]
  exact cursor.whole

theorem Cursor.before_begins (cursor : Cursor text) : cursor.before <+: text :=
  (List.prefix_append _ _).trans cursor.front_begins

/-- A cursor in an earlier line stands at an earlier offset. -/
theorem Cursor.offset_lt_of_count_lt {a b : Cursor text}
    (earlier : a.before.count '\n' < b.before.count '\n') : a.offset < b.offset := by
  by_contra later
  have parts : b.offset = len b.before + len b.line := rfl
  have shorter : len b.before ≤ len (a.before ++ a.line) := by
    rw [len_append]
    exact Nat.le_trans (by omega) (Nat.not_lt.mp later)
  have begins := begins_of_len_le b.before_begins a.front_begins shorter
  have fewer := begins.sublist.count_le '\n'
  rw [List.count_append, List.count_eq_zero.mpr a.plain] at fewer
  omega

/-- Cursors in one line have the same lines before them. -/
theorem Cursor.before_eq {a b : Cursor text}
    (same : a.before.count '\n' = b.before.count '\n') :
    a.before = b.before ∧ a.line ++ a.after = b.line ++ b.after := by
  have found := a.atLine_before
  rw [same, b.atLine_before, Option.some.injEq, Prod.mk.injEq] at found
  exact ⟨found.1.symm, found.2.symm⟩

theorem units_le_of_begins {a b : Text} (begins : a <+: b) : units a ≤ units b := by
  rcases begins with ⟨rest, rfl⟩
  rw [units_append]
  exact Nat.le_add_right _ _

theorem units_lt_of_begins {a b : Text} (begins : a <+: b) (shorter : len a < len b) :
    units a < units b := by
  rcases begins with ⟨rest, rfl⟩
  rw [len_append] at shorter
  rw [units_append]
  cases rest with
  | nil =>
      rw [len_nil] at shorter
      omega
  | cons c rest =>
      have positive := utf16Size_pos c
      rw [units_cons]
      omega

theorem Cursor.position_lt (small : len text < 2 ^ 32) {a b : Cursor text}
    (before : a.offset < b.offset) : a.position < b.position := by
  rw [Position.lt_iff, a.position_line small, b.position_line small, a.position_character small,
    b.position_character small]
  rcases Nat.lt_trichotomy (a.before.count '\n') (b.before.count '\n') with less | same | more
  · exact .inl less
  · rcases Cursor.before_eq same with ⟨sameBefore, sameRest⟩
    have shorter : len a.line < len b.line := by
      rw [Cursor.offset, Cursor.offset, sameBefore] at before
      omega
    have begins := begins_of_len_le (List.prefix_append a.line a.after)
      (sameRest ▸ List.prefix_append b.line b.after) (Nat.le_of_lt shorter)
    exact .inr ⟨same, units_lt_of_begins begins shorter⟩
  · have after := Cursor.offset_lt_of_count_lt more
    omega

end Order

/-! ## Both directions -/

/-- The position of a boundary. -/
def Addressable (text : Text) (pos : Position) : Prop :=
  ∃ offset, IsBoundary text offset ∧ offsetToPosition text offset = .ok pos

/-- The addressable positions of the line of `pos`. -/
def onLine (text : Text) (pos : Position) : Set Position :=
  {q | Addressable text q ∧ q.line = pos.line}

/-- The first addressable position of the line that is not before `pos`, or, past all of them, the
line's end. -/
def Nearest (text : Text) (pos found : Position) : Prop :=
  IsLeast {q ∈ onLine text pos | pos ≤ q} found ∨
    (∀ q ∈ onLine text pos, q < pos) ∧ IsGreatest (onLine text pos) found

theorem Cursor.addressable {text : Text} (small : len text < 2 ^ 32) (cursor : Cursor text) :
    Addressable text cursor.position :=
  ⟨cursor.offset, cursor.isBoundary, cursor.offsetToPosition_eq small⟩

theorem exists_cursor_of_addressable {text : Text} (small : len text < 2 ^ 32) {pos : Position}
    (addressable : Addressable text pos) : ∃ cursor : Cursor text, cursor.position = pos := by
  rcases addressable with ⟨offset, boundary, found⟩
  rcases exists_cursor boundary with ⟨cursor, rfl⟩
  rw [cursor.offsetToPosition_eq small] at found
  exact ⟨cursor, Except.ok.inj found⟩

/-- Reading back the position of a cursor. -/
theorem Cursor.positionToOffset_eq {text : Text} (small : len text < 2 ^ 32)
    (cursor : Cursor text) : positionToOffset text cursor.position = .ok (some cursor.offset) := by
  have found : atLine cursor.position.line.toNat text =
      some (cursor.before, cursor.line ++ cursor.after) := by
    rw [cursor.position_line small]
    exact cursor.atLine_before
  rcases exists_cursor_of_atLine small found with ⟨back, sameBefore, sameLine, offset⟩
  have reached := column_units cursor.line (lineOf cursor.after) 0
  rw [Nat.zero_add, ← lineOf_append cursor.plain, ← cursor.position_character small] at reached
  rw [offset, Cursor.offset, sameBefore, sameLine, reached]
  rfl

theorem nearest_of_cursor {text : Text} (small : len text < 2 ^ 32) {pos : Position}
    {front back : Text} (found : atLine pos.line.toNat text = some (front, back))
    {cursor : Cursor text} (sameBefore : cursor.before = front)
    (sameLine : cursor.line = column pos.character.toNat (lineOf back) 0) :
    Nearest text pos cursor.position := by
  have count := (wholeLines_of_atLine found).2
  have line : cursor.position.line = pos.line := by
    rw [← UInt32.toNat_inj, cursor.position_line small, sameBefore, count]
  have character := cursor.position_character small
  -- the other positions of the line belong to parts of it
  have others : ∀ q ∈ onLine text pos, ∃ part, part <+: lineOf back ∧
      q.line = pos.line ∧ q.character.toNat = units part := by
    rintro q ⟨addressable, inLine⟩
    rcases exists_cursor_of_addressable small addressable with ⟨other, rfl⟩
    have sameCount : other.before.count '\n' = cursor.before.count '\n' := by
      rw [← other.position_line small, inLine, sameBefore, count]
    have rest := other.atLine_before
    rw [sameCount, sameBefore, count, found, Option.some.injEq, Prod.mk.injEq] at rest
    refine ⟨other.line, ?_, inLine, other.position_character small⟩
    rw [rest.2]
    exact other.line_begins
  have member : cursor.position ∈ onLine text pos := ⟨cursor.addressable small, line⟩
  by_cases reached : pos.character.toNat ≤ units cursor.line
  · refine .inl ⟨⟨member, ?_⟩, ?_⟩
    · rw [Position.le_iff, line, character]
      exact .inr ⟨rfl, reached⟩
    · rintro q ⟨inLine, after⟩
      rcases others q inLine with ⟨part, begins, sameLine', units'⟩
      rw [Position.le_iff, sameLine', units'] at after
      have reachedToo : pos.character.toNat ≤ 0 + units part := by
        rw [Nat.zero_add]
        exact (after.resolve_left (Nat.lt_irrefl _)).2
      rw [Position.le_iff, sameLine', line, character, units', sameLine]
      exact .inr ⟨rfl, units_le_of_begins (column_begins begins reachedToo)⟩
  · have ended := (column_reaches pos.character.toNat (lineOf back) 0).resolve_left
      (by rwa [Nat.zero_add, ← sameLine])
    rw [ended] at sameLine
    refine .inr ⟨?_, member, ?_⟩
    · intro q inLine
      rcases others q inLine with ⟨part, begins, sameLine', units'⟩
      have within := units_le_of_begins begins
      rw [Position.lt_iff, sameLine', units']
      rw [sameLine] at reached
      exact .inr ⟨rfl, Nat.lt_of_le_of_lt within (Nat.not_le.mp reached)⟩
    · intro q inLine
      rcases others q inLine with ⟨part, begins, sameLine', units'⟩
      rw [Position.le_iff, sameLine', line, character, units', sameLine]
      exact .inr ⟨rfl, units_le_of_begins begins⟩

/--
In a text of less than `2 ^ 32` bytes the offsets of the characters and their positions determine
each other in order, and any other position stands for the next one in its line or the line's end.
-/
theorem positions_inverse (text : Text) (small : len text < 2 ^ 32) :
    (∀ offset, IsBoundary text offset → ∃ pos, offsetToPosition text offset = .ok pos ∧
      positionToOffset text pos = .ok (some offset)) ∧
    (∀ offset offset', IsBoundary text offset → IsBoundary text offset' → offset < offset' →
      ∃ pos pos', offsetToPosition text offset = .ok pos ∧
        offsetToPosition text offset' = .ok pos' ∧ pos < pos') ∧
    ∀ pos, (positionToOffset text pos = .ok none ↔ text.count '\n' < pos.line.toNat) ∧
      (¬ text.count '\n' < pos.line.toNat → ∃ offset found,
        positionToOffset text pos = .ok (some offset) ∧
        offsetToPosition text offset = .ok found ∧ Nearest text pos found) := by
  refine ⟨?_, ?_, ?_⟩
  · intro offset boundary
    rcases exists_cursor boundary with ⟨cursor, rfl⟩
    exact ⟨_, cursor.offsetToPosition_eq small, cursor.positionToOffset_eq small⟩
  · intro offset offset' boundary boundary' before
    rcases exists_cursor boundary with ⟨cursor, rfl⟩
    rcases exists_cursor boundary' with ⟨cursor', rfl⟩
    exact ⟨_, _, cursor.offsetToPosition_eq small, cursor'.offsetToPosition_eq small,
      Cursor.position_lt small before⟩
  · intro pos
    cases found : atLine pos.line.toNat text with
    | none =>
        have past := atLine_eq_none_iff.mp found
        exact ⟨iff_of_true (positionToOffset_of_none found) past, fun inside => absurd past inside⟩
    | some parts =>
        have inside : ¬ text.count '\n' < pos.line.toNat := by
          rw [← atLine_eq_none_iff, found]
          nofun
        rcases exists_cursor_of_atLine small found with ⟨cursor, sameBefore, sameLine, offset⟩
        constructor
        · rw [offset]
          exact iff_of_false nofun inside
        · intro _
          exact ⟨_, _, offset, cursor.offsetToPosition_eq small,
            nearest_of_cursor small found sameBefore sameLine⟩

/-- A line feed between two letters. -/
theorem positions_inverse_lines : IsBoundary ['a', '\n', 'b'] 2 ∧
    ∃ pos, offsetToPosition ['a', '\n', 'b'] 2 = .ok pos ∧
      positionToOffset ['a', '\n', 'b'] pos = .ok (some 2) := by
  have boundary : IsBoundary ['a', '\n', 'b'] 2 := ⟨['a', '\n'], ['b'], rfl, rfl⟩
  exact ⟨boundary, (positions_inverse ['a', '\n', 'b'] (by decide)).1 2 boundary⟩

end Rigor.Cli.Lsp
