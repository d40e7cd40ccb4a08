import Rigor.Cli.Baseline.Cell
import Rigor.Rust.Digits

/-!
# A baseline read back

The reader takes the lines of a row one key at a time: a key opens a cell, the lines
after it feed the cell, and the next key leaves it as it is.  A row is flushed when
the next one opens, so the rows behind a line are those of the lines before it.
-/

namespace Rigor.Cli

open Rigor.Rust

/-! ## Texts of keys -/

theorem trimEnd_append_cons {c : Char} (visible : isWhitespace c = false) (front back : Text) :
    Text.trimEnd (front ++ c :: back) = front ++ c :: Text.trimEnd back := by
  have tail : Text.trimEnd (c :: back) = c :: Text.trimEnd back := by
    rw [Text.trimEnd_cons]
    by_cases blank : Text.trimEnd back = []
    · rw [if_pos blank, if_neg (by simp [visible]), blank]
    · rw [if_neg blank]
  induction front with
  | nil => exact tail
  | cons d front ih =>
      rw [List.cons_append, Text.trimEnd_cons, ih, if_neg (by simp)]
      rfl

/-- A name of a key: it has no colon, and begins and ends like a word. -/
structure KeyName (key : Text) : Prop where
  noColon : ':' ∉ key
  trimmed : Text.trim key = key
  word : ∃ c rest, key = c :: rest ∧ isWhitespace c = false ∧ c ≠ '#' ∧ c ≠ '-'

theorem keyName_of_fields {key : Text}
    (named : key ∈ ["file".toList, "rule".toList, "message".toList, "count".toList]) : KeyName key := by
  have each : ∀ key ∈ ["file".toList, "rule".toList, "message".toList, "count".toList],
      ':' ∉ key ∧ Text.trim key = key ∧
        key.head?.all (fun c => !isWhitespace c && c ≠ '#' && c ≠ '-') = true := by
    decide
  rcases each key named with ⟨noColon, trimmed, first⟩
  cases key with
  | nil => simp at named
  | cons c rest => exact ⟨noColon, trimmed, c, rest, rfl, by simpa [and_assoc] using first⟩

/-- A line that begins a field: its key, and the first line of the value. -/
def keyText (key text : Text) : Text :=
  key ++ ':' :: ' ' :: text

theorem trimEnd_keyText (key text : Text) :
    Text.trimEnd (keyText key text) = key ++ ':' :: Text.trimEnd (' ' :: text) :=
  trimEnd_append_cons (by decide) _ _

theorem trim_keyText {key blank text : Text} (name : KeyName key) (spaces : ∀ c ∈ blank, isWhitespace c = true) :
    Text.trim (Text.stripReturn (blank ++ keyText key text)) = key ++ ':' :: Text.trimEnd (' ' :: text) := by
  rcases name.word with ⟨c, rest, rfl, visible, -⟩
  rw [Text.trim_stripReturn, Text.trim_append_of_blank spaces, Text.trim, keyText, List.cons_append,
    Text.trimStart_cons_of_not visible, ← List.cons_append]
  exact trimEnd_keyText _ text

/-- Only the value of a line can end in a carriage return. -/
theorem stripReturn_keyText (front key text : Text) : Text.stripReturn (front ++ keyText key text) =
    front ++ (key ++ ':' :: Text.stripReturn (' ' :: text)) := by
  have whole : front ++ keyText key text = (front ++ (key ++ [':'])) ++ ' ' :: text := by
    simp [keyText]
  rw [whole, Text.stripReturn_append (List.cons_ne_nil _ _)]
  simp

theorem indentOf_append {front : Text} (spaces : ∀ c ∈ front, isWhitespace c = true) {c : Char}
    (visible : isWhitespace c = false) (rest : Text) :
    FieldVal.indentOf (front ++ c :: rest) = Text.len front := by
  rw [FieldVal.indentOf, Text.trimStart_append_of_blank spaces, Text.trimStart_cons_of_not visible,
    Text.len_append, Nat.add_sub_cancel]

theorem trimStart_trimEnd_space (text : Text) :
    Text.trimStart (Text.trimEnd (' ' :: text)) = Text.trim text := by
  rw [Text.trimStart_trimEnd]
  have blank : [' '].all isWhitespace = true := rfl
  exact Text.trim_append_of_blank (List.all_eq_true.mp blank) text

/-! ## A row and its cell -/

namespace RowAcc

/-- The row whose last field is a cell. -/
def withCell (acc : RowAcc) (field : Field) (cell : Cell) : RowAcc :=
  let acc := { acc with
    last := some field
    quoteOpen := cell.quoteOpen
    pendingBreaks := cell.pendingBreaks }
  match field with
  | .file => { acc with file := cell.value }
  | .rule => { acc with rule := cell.value }
  | .message => { acc with message := cell.value }
  | .count => { acc with count := cell.value }
  | .other => acc

@[simp]
theorem withCell_quoteOpen (acc : RowAcc) (field : Field) (cell : Cell) :
    (acc.withCell field cell).quoteOpen = cell.quoteOpen := by
  cases field <;> rfl

/-- A key opens a cell, in a field that is not there yet. -/
theorem assign_eq (acc : RowAcc) {field : Field} (fresh : acc.fieldRef field = none)
    (known : field ≠ .other) (head : Text) (kind : ScalarKind) :
    acc.assign field head kind = acc.withCell field (Cell.start head kind) := by
  unfold assign Cell.start
  by_cases empty : head = []
  · rw [if_pos empty, if_pos empty]
    cases field with
    | file => simp only [withCell, ← fresh]; rfl
    | rule => simp only [withCell, ← fresh]; rfl
    | message => simp only [withCell, ← fresh]; rfl
    | count => simp only [withCell, ← fresh]; rfl
    | other => exact absurd rfl known
  · rw [if_neg empty, if_neg empty]
    cases field with
    | file => rfl
    | rule => rfl
    | message => rfl
    | count => rfl
    | other => exact absurd rfl known

theorem continueScalar_withCell (acc : RowAcc) {field : Field} (known : field ≠ .other) (cell : Cell)
    (rawLine : Text) :
    (acc.withCell field cell).continueScalar rawLine = acc.withCell field (cell.resume rawLine) := by
  cases field with
  | file => rfl
  | rule => rfl
  | message => rfl
  | count => rfl
  | other => exact absurd rfl known

theorem apply_keyText (U : UnicodeTables) (acc : RowAcc) {key : Text} (name : KeyName key)
    (text label : Text) (rowHead : Bool) :
    acc.apply U (key ++ ':' :: Text.trimEnd (' ' :: text)) label rowHead =
      .ok (acc.assign (fieldOfKey key) (scalarHead (Text.trim text)).1 (scalarHead (Text.trim text)).2) := by
  rw [apply, Text.splitOnce_append name.noColon]
  dsimp only
  rw [trimStart_trimEnd_space, name.trimmed]

end RowAcc

/-! ## Lines of a row -/

namespace Scan

variable {E : RegexEngine} {U : UnicodeTables} {label : Text} {scan : Scan E}

/-- The row that is open, in the layout of the writer: the dash at column 0, the keys at column 2. -/
structure Open (scan : Scan E) (acc : RowAcc) : Prop where
  cur : scan.cur = some acc
  inIgnored : scan.inIgnored = true
  itemCol : scan.itemCol = 0
  memberCol : scan.memberCol = 2

/-- Another state of the same row. -/
def reopen (scan : Scan E) (acc : RowAcc) : Scan E :=
  { scan with cur := some acc }

theorem Open.reopen {acc : RowAcc} (opened : scan.Open acc) (acc' : RowAcc) :
    (scan.reopen acc').Open acc' :=
  ⟨rfl, opened.inIgnored, opened.itemCol, opened.memberCol⟩

theorem Open.reopen_self {acc : RowAcc} (opened : scan.Open acc) : scan.reopen acc = scan := by
  rw [Scan.reopen, ← opened.cur]

theorem step_of_visible {line : Text} (joins : skipped (Text.trim line) = false)
    (visible : Text.trim line ≠ []) : scan.step U label line =
      match scan.cur with
      | some acc =>
          if acc.quoteOpen then .ok (scan.reopen (acc.continueScalar (Text.trim line)))
          else scan.contentLine U line label
      | none => scan.contentLine U line label :=
  (if_neg (Bool.eq_false_iff.mp joins)).trans (if_neg visible)

/-- A line that goes on with a value. -/
def Deep (line : Text) : Prop :=
  line = [] ∨ ∃ text, line = indented text

theorem step_deep {acc : RowAcc} {field : Field} {cell : Cell} (opened : scan.Open (acc.withCell field cell))
    (known : field ≠ .other) {line : Text} (deep : Deep line) :
    scan.step U label line = .ok (scan.reopen (acc.withCell field (cell.feed line))) := by
  unfold Cell.feed
  by_cases skip : skipped (Text.trim line) = true
  · rw [if_pos skip, opened.reopen_self]
    exact if_pos skip
  · rw [if_neg skip]
    by_cases blank : Text.trim line = []
    · rw [if_pos blank]
      refine ((if_neg skip).trans (if_pos blank)).trans ?_
      rw [opened.cur]
      cases field <;> rfl
    · rw [if_neg blank, step_of_visible (Bool.eq_false_iff.mpr skip) blank, opened.cur]
      dsimp only
      rw [RowAcc.withCell_quoteOpen]
      cases quote : cell.quoteOpen with
      | true =>
          rw [if_pos rfl, if_pos rfl, RowAcc.continueScalar_withCell acc known]
      | false =>
          rcases deep with rfl | ⟨text, rfl⟩
          · exact absurd rfl blank
          · have far : 4 ≤ FieldVal.indentOf (indented text) := by
              rw [indentOf_indented]
              exact Nat.le_add_right _ _
            have first : (indented text).head? = some ' ' := rfl
            have deeper : ¬ FieldVal.indentOf (indented text) ≤ 0 := by omega
            have member : 2 < FieldVal.indentOf (indented text) := by omega
            simp only [Bool.false_eq_true, if_false, contentLine, opened.inIgnored, first, opened.cur,
              opened.itemCol, opened.memberCol, memberLine, deeper, if_pos member,
              RowAcc.continueScalar_withCell acc known]
            simp [Scan.reopen, bind, Except.bind, opened.inIgnored, opened.itemCol, opened.memberCol]

theorem foldlM_deep {acc : RowAcc} {field : Field} (known : field ≠ .other) {lines : List Text}
    (deep : ∀ line ∈ lines, Deep line) {cell : Cell} (opened : scan.Open (acc.withCell field cell)) :
    lines.foldlM (step U label) scan = .ok (scan.reopen (acc.withCell field (lines.foldl Cell.feed cell))) := by
  induction lines generalizing scan cell with
  | nil =>
      rw [List.foldl_nil, opened.reopen_self]
      rfl
  | cons line lines ih =>
      rw [List.forall_mem_cons] at deep
      rw [List.foldlM_cons, step_deep opened known deep.1]
      exact ih deep.2 (opened.reopen _)

/-! ### Keys -/

theorem skipped_of_head {c : Char} (noComment : c ≠ '#') (noMarker : c ≠ '-') (rest : Text) :
    skipped (c :: rest) = false := by
  simp [skipped, noComment, noMarker]

/-- A key of the open row. -/
theorem step_key {acc : RowAcc} (opened : scan.Open acc) (closed : acc.quoteOpen = false) {key : Text}
    (name : KeyName key) (fresh : acc.fieldRef (RowAcc.fieldOfKey key) = none)
    (known : RowAcc.fieldOfKey key ≠ .other) (text : Text) :
    scan.step U label (Text.stripReturn ("  ".toList ++ keyText key text)) =
      .ok (scan.reopen (acc.withCell (RowAcc.fieldOfKey key)
        (Cell.start (scalarHead (Text.trim text)).1 (scalarHead (Text.trim text)).2))) := by
  have blank : "  ".toList.all isWhitespace = true := rfl
  have spaces := List.all_eq_true.mp blank
  have trimmed : Text.trim (Text.stripReturn ("  ".toList ++ keyText key text)) = _ :=
    trim_keyText name spaces
  have line := stripReturn_keyText "  ".toList key text
  have applied := RowAcc.apply_keyText U acc name text label false
  rw [RowAcc.assign_eq acc fresh known] at applied
  rcases name.word with ⟨c, rest, rfl, visible, noComment, noMarker⟩
  have indent : FieldVal.indentOf (Text.stripReturn ("  ".toList ++ keyText (c :: rest) text)) = 2 := by
    rw [line, List.cons_append, indentOf_append spaces visible]
    rfl
  have first : (Text.stripReturn ("  ".toList ++ keyText (c :: rest) text)).head? = some ' ' := by
    rw [line]
    rfl
  rw [step_of_visible (by rw [trimmed]; exact skipped_of_head noComment noMarker _) (by rw [trimmed]; simp),
    opened.cur]
  simp only [closed, Bool.false_eq_true, if_false, contentLine, opened.inIgnored, first, opened.cur,
    opened.itemCol, opened.memberCol, indent, memberLine, trimmed, applied]
  simp [Scan.reopen, bind, Except.bind, opened.inIgnored, opened.itemCol, opened.memberCol]

/-- The rows that are behind the scanner. -/
structure Behind (U : UnicodeTables) (label : Text) (scan : Scan E) (buckets : List (Bucket E)) : Prop where
  version : scan.version = some (natText currentVersion, false)
  inIgnored : scan.inIgnored = true
  closed : ∀ acc ∈ scan.cur, acc.quoteOpen = false
  flush : scan.flush U label = .ok { scan with buckets := buckets, cur := none }

/-- The scanner in a row of the writer. -/
def inRow (buckets : List (Bucket E)) (acc : RowAcc) : Scan E where
  version := some (natText currentVersion, false)
  buckets := buckets
  cur := some acc
  inIgnored := true
  itemCol := 0
  memberCol := 2

theorem open_inRow (buckets : List (Bucket E)) (acc : RowAcc) : (inRow buckets acc).Open acc :=
  ⟨rfl, rfl, rfl, rfl⟩

/-- The key on the line of the dash flushes the row before it. -/
theorem step_dash {buckets : List (Bucket E)} (behind : Behind U label scan buckets) {key : Text}
    (name : KeyName key) (known : RowAcc.fieldOfKey key ≠ .other) (text : Text) :
    scan.step U label (Text.stripReturn ("- ".toList ++ keyText key text)) =
      .ok (inRow buckets (RowAcc.withCell { idx := buckets.length } (RowAcc.fieldOfKey key)
        (Cell.start (scalarHead (Text.trim text)).1 (scalarHead (Text.trim text)).2))) := by
  have fresh : (({ idx := buckets.length } : RowAcc)).fieldRef (RowAcc.fieldOfKey key) = none := by
    cases RowAcc.fieldOfKey key <;> rfl
  have applied := RowAcc.apply_keyText U { idx := buckets.length } name text label true
  rw [RowAcc.assign_eq _ fresh known] at applied
  have line := stripReturn_keyText "- ".toList key text
  have trimmed : Text.trim (Text.stripReturn ("- ".toList ++ keyText key text)) =
      '-' :: ' ' :: (key ++ ':' :: Text.trimEnd (' ' :: text)) := by
    have start : Text.trimStart ("- ".toList ++ keyText key text) =
        ("- ".toList ++ key) ++ ':' :: ' ' :: text := by
      simp [keyText, Text.trimStart, isWhitespace]
    rw [Text.trim_stripReturn, Text.trim, start, trimEnd_append_cons (by decide)]
    rfl
  rcases name.word with ⟨c, rest, rfl, visible, noComment, noMarker⟩
  have joins : skipped ('-' :: ' ' :: (c :: rest ++ ':' :: Text.trimEnd (' ' :: text))) = false := by
    simp [skipped]
  have indent : FieldVal.indentOf (Text.stripReturn ("- ".toList ++ keyText (c :: rest) text)) = 0 := by
    rw [line]
    exact @indentOf_append [] (by simp) '-' (by decide) _
  have first : (Text.stripReturn ("- ".toList ++ keyText (c :: rest) text)).head? = some '-' := by
    rw [line]
    rfl
  have unindented : FieldVal.indentOf (c :: rest ++ ':' :: Text.trimEnd (' ' :: text)) = 0 :=
    @indentOf_append [] (by simp) c visible _
  have sameStart : Text.trimStart (c :: rest ++ ':' :: Text.trimEnd (' ' :: text)) =
      c :: rest ++ ':' :: Text.trimEnd (' ' :: text) :=
    Text.trimStart_cons_of_not visible _
  have content : scan.contentLine U (Text.stripReturn ("- ".toList ++ keyText (c :: rest) text)) label =
      scan.openRow U 0 ('-' :: ' ' :: (c :: rest ++ ':' :: Text.trimEnd (' ' :: text))) label := by
    rw [contentLine, trimmed, indent, first]
    simp [behind.inIgnored]
  have row : scan.openRow U 0 ('-' :: ' ' :: (c :: rest ++ ':' :: Text.trimEnd (' ' :: text))) label =
      .ok (inRow buckets (RowAcc.withCell { idx := buckets.length } (RowAcc.fieldOfKey (c :: rest))
        (Cell.start (scalarHead (Text.trim text)).1 (scalarHead (Text.trim text)).2))) := by
    rw [openRow, behind.flush]
    simp only [bind, Except.bind, List.drop_succ_cons, List.drop_zero, sameStart, applied, unindented]
    simp [inRow, behind.version, behind.inIgnored]
  rw [step_of_visible (by rw [trimmed]; exact joins) (by rw [trimmed]; simp)]
  cases before : scan.cur with
  | none => exact content.trans row
  | some acc =>
      have closed : acc.quoteOpen = false := behind.closed acc before
      dsimp only
      rw [closed]
      exact content.trans row

/-! ### Fields -/

/-- The lines of one field, after the key and what stands before it. -/
def fieldLines (U : UnicodeTables) (start value : Text) : List Text :=
  ((start ++ (spelling U start value).1) :: (spelling U start value).2).map Text.stripReturn

theorem deep_stripReturn_indented (line : Text) : Deep (Text.stripReturn (indented line)) := by
  by_cases empty : line = []
  · rw [empty]
    exact Or.inr ⟨[], rfl⟩
  · rw [stripReturn_indented empty]
    exact Or.inr ⟨_, rfl⟩

/-- The lines after the first one of a value that is carried. -/
theorem deep_spelling {start value : Text} (carries : Carries U start value) :
    ∀ line ∈ (spelling U start value).2.map Text.stripReturn, Deep line := by
  rw [spelling]
  cases style : scalarStyle U value with
  | plain =>
      intro line mem
      simp only [List.map_map, List.mem_map, Function.comp_apply] at mem
      rcases mem with ⟨piece, -, rfl⟩
      exact deep_stripReturn_indented piece
  | single =>
      rw [Carries, style] at carries
      have noEnd : ¬ ['\n'] <:+ value := fun feed => carries (feed.subset (List.mem_singleton_self _))
      simp [noEnd]
  | double => simp
  | taggedSingle => simp
  | literal =>
      intro line mem
      simp only [List.map_map, List.mem_map, Function.comp_apply] at mem
      rcases mem with ⟨content, -, rfl⟩
      split
      · exact Or.inl rfl
      · exact deep_stripReturn_indented content

theorem cellOf_eq (start value : Text) : cellOf U start value =
    ((spelling U start value).2.map Text.stripReturn).foldl Cell.feed
      (Cell.start (scalarHead (Text.trim (spelling U start value).1)).1
        (scalarHead (Text.trim (spelling U start value).1)).2) :=
  rfl

/-- The lines of a field of the open row. -/
theorem foldlM_field {acc : RowAcc} (opened : scan.Open acc) (closed : acc.quoteOpen = false) {key : Text}
    (name : KeyName key) (fresh : acc.fieldRef (RowAcc.fieldOfKey key) = none)
    (known : RowAcc.fieldOfKey key ≠ .other) {start value : Text}
    (prefixed : ∀ text, start ++ text = "  ".toList ++ keyText key text)
    (carries : Carries U start value) : (fieldLines U start value).foldlM (step U label) scan =
      .ok (scan.reopen (acc.withCell (RowAcc.fieldOfKey key) (cellOf U start value))) := by
  rw [fieldLines, List.map_cons, prefixed, List.foldlM_cons, step_key opened closed name fresh known, cellOf_eq]
  exact foldlM_deep known (deep_spelling carries) (opened.reopen _)

/-- The lines of the field that opens a row. -/
theorem foldlM_dash {buckets : List (Bucket E)} (behind : Behind U label scan buckets) {key : Text}
    (name : KeyName key) (known : RowAcc.fieldOfKey key ≠ .other) {start value : Text}
    (prefixed : ∀ text, start ++ text = "- ".toList ++ keyText key text)
    (carries : Carries U start value) : (fieldLines U start value).foldlM (step U label) scan =
      .ok (inRow buckets (RowAcc.withCell { idx := buckets.length } (RowAcc.fieldOfKey key)
        (cellOf U start value))) := by
  rw [fieldLines, List.map_cons, prefixed, List.foldlM_cons, step_dash behind name known, cellOf_eq]
  exact foldlM_deep known (deep_spelling carries) (open_inRow _ _)

end Scan

/-! ## Rows -/

theorem natText_spec (n : Nat) : natText n ≠ [] ∧ (∀ c ∈ natText n, c.isDigit = true) ∧
    Text.digitsValue (natText n) = some n :=
  ⟨Nat.toDigits_ne_nil, fun _ mem => isDigit_of_mem_toDigits mem, digitsValue_toDigits n⟩

theorem not_isWhitespace_of_isDigit {c : Char} (digit : c.isDigit = true) : isWhitespace c = false := by
  rw [isDigit_iff] at digit
  simp only [isWhitespace, Bool.or_eq_false_iff, Bool.and_eq_false_iff, decide_eq_false_iff_not]
  omega

theorem trim_natText (n : Nat) : Text.trim (natText n) = natText n := by
  rcases natText_spec n with ⟨-, digits, -⟩
  rw [Text.trim_eq_self_iff, Text.trimStart_eq_self_iff, Text.trimEnd_eq_self_iff]
  exact ⟨fun c first => not_isWhitespace_of_isDigit (digits c (List.mem_of_head? first)),
    fun c last => not_isWhitespace_of_isDigit (digits c (List.mem_of_getLast? last))⟩

theorem scalarHead_natText (n : Nat) : scalarHead (natText n) = (natText n, .plain) := by
  rcases natText_spec n with ⟨-, digits, -⟩
  have other : indicators.all (fun c => !c.isDigit) = true := rfl
  apply scalarHead_plain
  · intro c first isIndicator
    have noDigit := List.all_eq_true.mp other c isIndicator
    rw [digits c (List.mem_of_head? first)] at noDigit
    exact absurd noDigit (by decide)
  · intro comment
    exact absurd (digits '#' (comment.subset (by decide))) (by decide)
  · exact (Text.trim_eq_self_iff.mp (trim_natText n)).2

theorem unyamlScalar_natText (n : Nat) : unyamlScalar (natText n) = natText n := by
  rcases natText_spec n with ⟨-, digits, -⟩
  have unquoted : ∀ quote : Char, quote.isDigit = false → quoted quote (natText n) = none := by
    intro quote other
    apply quoted_eq_none
    intro first
    have digit := digits quote (List.mem_of_head? first)
    rw [other] at digit
    contradiction
  rw [unyamlScalar, trim_natText, unquoted '\'' (by decide), unquoted '"' (by decide)]

/-- The two readings of a count. -/
theorem parse_natText {n : Nat} (small : n < 2 ^ 63) :
    Text.parseI64 (natText n) = some (n : Int) ∧ Text.parseU64 (natText n) = some n := by
  rcases natText_spec n with ⟨nonempty, digits, value⟩
  rcases List.exists_cons_of_ne_nil nonempty with ⟨c, rest, text⟩
  have digit : c.isDigit = true := digits c (text ▸ List.mem_cons_self)
  have noPlus : c ≠ '+' := by
    rintro rfl
    contradiction
  have noMinus : c ≠ '-' := by
    rintro rfl
    contradiction
  rw [text] at value ⊢
  constructor
  · unfold Text.parseI64
    split
    · rename_i same
      exact absurd (List.cons.inj same).1 noPlus
    · rename_i same
      exact absurd (List.cons.inj same).1 noMinus
    · have inside : -2 ^ 63 ≤ (n : Int) ∧ (n : Int) < 2 ^ 63 := by omega
      rw [value]
      simpa [Option.filter] using inside
  · unfold Text.parseU64
    split
    · rename_i same
      exact absurd (List.cons.inj same).1 noPlus
    · have inside : n < 2 ^ 64 := by omega
      rw [value]
      simpa [Option.filter] using inside

section Rows

variable {E : RegexEngine} {U : UnicodeTables} {label : Text}

/-- A row whose texts the writer can carry, with a pattern that compiles and a count that an `i64` holds. -/
structure Written (U : UnicodeTables) (b : Bucket E) : Prop where
  file : Carries U "- file: ".toList b.file
  rule : Carries U "  rule: ".toList b.rule
  message : ∀ message, b.message = some message → Carries U "  message: ".toList message
  compiles : ∀ message, b.message = some message → ∃ regex, E.new message = .ok regex
  positive : 0 < b.count
  small : b.count < 2 ^ 63

namespace RowAcc

/-- A row with all its fields makes its bucket. -/
theorem intoBucket_eq {acc : RowAcc} {b : Bucket E} (file : acc.decodedNonnull .file = some b.file)
    (rule : acc.decodedNonnull .rule = some b.rule) (message : acc.decodedNonnull .message = b.message)
    (count : acc.fieldRef .count = some { raw := natText b.count }) (written : Written U b) :
    acc.intoBucket U label = .ok b := by
  have counted : acc.count = some { raw := natText b.count } := count
  have decoded : FieldVal.decode { raw := natText b.count } = natText b.count := unyamlScalar_natText _
  rcases parse_natText written.small with ⟨signed, unsigned⟩
  rcases b with ⟨bfile, brule, bmessage, bregex, bcount, rfl⟩
  have positive : bcount ≠ 0 := Nat.pos_iff_ne_zero.mp written.positive
  cases bmessage with
  | none =>
      simp [intoBucket, file, rule, message, counted, decoded, signed, unsigned, positive, Bucket.ruleRow,
        bind, Except.bind]
  | some source =>
      rcases written.compiles source rfl with ⟨regex, compiled⟩
      simp [intoBucket, file, rule, message, counted, decoded, signed, unsigned, positive, compiled,
        Bucket.messageRow, bind, Except.bind]

end RowAcc

/-- The lines of one row. -/
def rowLines (U : UnicodeTables) (b : Bucket E) : List Text :=
  Scan.fieldLines U "- file: ".toList b.file ++ Scan.fieldLines U "  rule: ".toList b.rule ++
    (match b.message with
      | some message => Scan.fieldLines U "  message: ".toList message
      | none => []) ++
    [Text.stripReturn ("  count: ".toList ++ natText b.count)]

namespace Scan

variable {scan : Scan E}

theorem keyName_file : KeyName "file".toList :=
  keyName_of_fields (by decide)

theorem keyName_rule : KeyName "rule".toList :=
  keyName_of_fields (by decide)

theorem keyName_message : KeyName "message".toList :=
  keyName_of_fields (by decide)

theorem keyName_count : KeyName "count".toList :=
  keyName_of_fields (by decide)

/-- The line of the count, which is one line. -/
theorem step_count {acc : RowAcc} (opened : scan.Open acc) (closed : acc.quoteOpen = false)
    (fresh : acc.count = none) (n : Nat) :
    scan.step U label (Text.stripReturn ("  count: ".toList ++ natText n)) =
      .ok (scan.reopen (acc.withCell .count { value := some { raw := natText n } })) := by
  have key : scan.step U label (Text.stripReturn ("  ".toList ++ keyText "count".toList (natText n))) = _ :=
    step_key opened closed keyName_count fresh (by decide) (natText n)
  have cell : Cell.start (natText n) .plain = { value := some { raw := natText n } } := by
    rw [Cell.start, if_neg (natText_spec n).1]
    rfl
  rwa [trim_natText, scalarHead_natText, cell] at key

/-- The second part of the lines is read from where the first one ends. -/
theorem foldlM_append_of_ok {σ α ε : Type} {f : σ → α → Except ε σ} {front back : List α} {s s' : σ}
    (ran : front.foldlM f s = .ok s') : (front ++ back).foldlM f s = back.foldlM f s' := by
  rw [List.foldlM_append, ran]
  rfl

/-- One row: the rows before it are flushed, and it is the row behind the next line. -/
theorem foldlM_row {buckets : List (Bucket E)} (behind : Behind U label scan buckets) {b : Bucket E}
    (written : Written U b) : ∃ scan', (rowLines U b).foldlM (step U label) scan = .ok scan' ∧
      Behind U label scan' (buckets ++ [b]) := by
  have file := holds_of_carries (by decide) written.file
  have rule := holds_of_carries (by decide) written.rule
  let acc₁ := RowAcc.withCell { idx := buckets.length } .file (cellOf U "- file: ".toList b.file)
  let acc₂ := acc₁.withCell .rule (cellOf U "  rule: ".toList b.rule)
  have first : (fieldLines U "- file: ".toList b.file).foldlM (step U label) scan = .ok (inRow buckets acc₁) :=
    foldlM_dash behind keyName_file (by decide) (fun _ => rfl) written.file
  have closed₁ : acc₁.quoteOpen = false := (RowAcc.withCell_quoteOpen _ _ _).trans file.2
  have closed₂ : acc₂.quoteOpen = false := (RowAcc.withCell_quoteOpen _ _ _).trans rule.2
  have second : (fieldLines U "  rule: ".toList b.rule).foldlM (step U label) (inRow buckets acc₁) =
      .ok (inRow buckets acc₂) :=
    foldlM_field (open_inRow buckets acc₁) closed₁ keyName_rule rfl (by decide) (fun _ => rfl) written.rule
  have third : ∃ acc₃ : RowAcc,
      (match b.message with
        | some message => fieldLines U "  message: ".toList message
        | none => []).foldlM (step U label) (inRow buckets acc₂) = .ok (inRow buckets acc₃) ∧
      acc₃.quoteOpen = false ∧ acc₃.decodedNonnull .file = acc₂.decodedNonnull .file ∧
      acc₃.decodedNonnull .rule = acc₂.decodedNonnull .rule ∧ acc₃.decodedNonnull .message = b.message ∧
      acc₃.count = none := by
    cases present : b.message with
    | none => exact ⟨acc₂, rfl, closed₂, rfl, rfl, rfl, rfl⟩
    | some message =>
        have carries := written.message message present
        have holds := holds_of_carries (by decide) carries
        have lines : (fieldLines U "  message: ".toList message).foldlM (step U label) (inRow buckets acc₂) =
            .ok (inRow buckets (acc₂.withCell .message (cellOf U "  message: ".toList message))) :=
          foldlM_field (open_inRow buckets acc₂) closed₂ keyName_message rfl (by decide) (fun _ => rfl) carries
        exact ⟨_, lines, (RowAcc.withCell_quoteOpen _ _ _).trans holds.2, rfl, rfl, holds.1, rfl⟩
  rcases third with ⟨acc₃, message, closed₃, sameFile, sameRule, decoded, noCount⟩
  let acc₄ := acc₃.withCell .count { value := some { raw := natText b.count } }
  have last : step U label (inRow buckets acc₃) (Text.stripReturn ("  count: ".toList ++ natText b.count)) =
      .ok (inRow buckets acc₄) :=
    step_count (open_inRow buckets acc₃) closed₃ noCount b.count
  have bucket : acc₄.intoBucket U label = .ok b :=
    RowAcc.intoBucket_eq (sameFile.trans file.1) (sameRule.trans rule.1) decoded rfl written
  refine ⟨inRow buckets acc₄, ?_, ⟨rfl, rfl, ?_, ?_⟩⟩
  · rw [rowLines, List.append_assoc, List.append_assoc, foldlM_append_of_ok first, foldlM_append_of_ok second,
      foldlM_append_of_ok message, List.foldlM_cons, last]
    rfl
  · intro acc mem
    rw [inRow, Option.mem_some_iff] at mem
    exact mem ▸ RowAcc.withCell_quoteOpen _ _ _
  · rw [flush, inRow]
    simp only [bucket, bind, Except.bind]

end Scan

/-! ## The document -/

theorem lines_unlines {rows : List Text} (oneLine : ∀ row ∈ rows, '\n' ∉ row) :
    Text.lines (Text.unlines rows) = rows.map Text.stripReturn := by
  induction rows with
  | nil => rfl
  | cons row rows ih =>
      rw [List.forall_mem_cons] at oneLine
      rw [Text.unlines_cons, Text.lines, Text.linesFrom_append oneLine.1, Text.linesFrom, if_pos rfl,
        List.nil_append, List.map_cons, ← ih oneLine.2]
      rfl

/-- The lines of a field as they are written. -/
def fieldText (U : UnicodeTables) (start value : Text) : List Text :=
  (start ++ (spelling U start value).1) :: (spelling U start value).2

def rowText (U : UnicodeTables) (b : Bucket E) : List Text :=
  fieldText U "- file: ".toList b.file ++ fieldText U "  rule: ".toList b.rule ++
    (match b.message with
      | some message => fieldText U "  message: ".toList message
      | none => []) ++
    ["  count: ".toList ++ natText b.count]

theorem rowYaml_eq (b : Bucket E) : Baseline.rowYaml U b = Text.unlines (rowText U b) := by
  rw [Baseline.rowYaml, rowText, pushKv_eq, pushKv_eq]
  cases b.message with
  | none => simp [fieldText]
  | some message => simp [fieldText, pushKv_eq]

theorem map_stripReturn_rowText (b : Bucket E) : (rowText U b).map Text.stripReturn = rowLines U b := by
  rw [rowText, rowLines]
  cases b.message with
  | none => simp [fieldText, Scan.fieldLines]
  | some message => simp [fieldText, Scan.fieldLines]

theorem fieldText_noFeed {start : Text} (noFeed : '\n' ∉ start) (value : Text) :
    ∀ line ∈ fieldText U start value, '\n' ∉ line := by
  rw [fieldText, List.forall_mem_cons, List.mem_append, not_or]
  exact ⟨⟨noFeed, (spelling_noFeed U start value).1⟩, (spelling_noFeed U start value).2⟩

theorem rowText_noFeed (b : Bucket E) : ∀ line ∈ rowText U b, '\n' ∉ line := by
  have digits : '\n' ∉ natText b.count := fun mem => by
    have digit := (natText_spec b.count).2.1 '\n' mem
    contradiction
  rw [rowText]
  simp only [List.mem_append, List.mem_singleton]
  rintro line (((file | rule) | message) | rfl)
  · exact fieldText_noFeed (by decide) _ line file
  · exact fieldText_noFeed (by decide) _ line rule
  · cases present : b.message with
    | none => simp [present] at message
    | some source =>
        rw [present] at message
        exact fieldText_noFeed (by decide) source line message
  · rw [List.mem_append, not_or]
    exact ⟨by decide, digits⟩

/-- The lines of the whole text. -/
theorem lines_toYaml (baseline : Baseline E) : Text.lines (baseline.toYaml U) =
    ["---".toList, "version: 1".toList] ++
      if baseline.buckets = [] then ["ignored: []".toList]
      else "ignored:".toList :: baseline.buckets.flatMap (rowLines U) := by
  have rows : ∀ buckets : List (Bucket E), buckets.flatMap (Baseline.rowYaml U) =
      Text.unlines (buckets.flatMap (rowText U)) := by
    intro buckets
    induction buckets with
    | nil => rfl
    | cons b buckets ih => rw [List.flatMap_cons, List.flatMap_cons, ih, rowYaml_eq, Text.unlines_append]
  by_cases empty : baseline.buckets = []
  · rw [Baseline.toYaml, empty]
    rfl
  · have text : baseline.toYaml U = Text.unlines (["---".toList, "version: 1".toList, "ignored:".toList] ++
        baseline.buckets.flatMap (rowText U)) := by
      have version : natText currentVersion = ['1'] := by decide
      rw [Baseline.toYaml, if_neg (by simpa using empty), rows, Text.unlines_append, version]
      rfl
    have oneLine : ∀ line ∈ ["---".toList, "version: 1".toList, "ignored:".toList] ++
        baseline.buckets.flatMap (rowText U), '\n' ∉ line := by
      simp only [List.mem_append, List.mem_flatMap]
      rintro line (header | ⟨b, -, mem⟩)
      · revert line
        decide
      · exact rowText_noFeed b line mem
    rw [if_neg empty, text, lines_unlines oneLine, List.map_append, List.map_flatMap]
    simp only [map_stripReturn_rowText]
    rfl

namespace Scan

variable {scan : Scan E}

theorem foldlM_rows {buckets : List (Bucket E)} (behind : Behind U label scan buckets)
    {rows : List (Bucket E)} (written : ∀ b ∈ rows, Written U b) :
    ∃ scan', (rows.flatMap (rowLines U)).foldlM (step U label) scan = .ok scan' ∧
      Behind U label scan' (buckets ++ rows) := by
  induction rows generalizing scan buckets with
  | nil => exact ⟨scan, rfl, (List.append_nil buckets).symm ▸ behind⟩
  | cons b rows ih =>
      rw [List.forall_mem_cons] at written
      rcases foldlM_row behind written.1 with ⟨scan₁, row, behind₁⟩
      rcases ih behind₁ written.2 with ⟨scan₂, later, behind₂⟩
      refine ⟨scan₂, ?_, ?_⟩
      · rw [List.flatMap_cons, foldlM_append_of_ok row, later]
      · rwa [List.append_assoc] at behind₂

/-- After the last line the rows are the baseline. -/
theorem finish_of_behind {buckets : List (Bucket E)} (behind : Behind U label scan buckets) :
    scan.finish U label = .ok ⟨buckets⟩ := by
  rw [finish, behind.flush]
  simp only [bind, Except.bind, behind.version]
  exact if_pos (by decide)

end Scan

/-- The text of a baseline loads as the baseline: the same rows in the same order, with equal fields. -/
theorem parse_toYaml (U : UnicodeTables) (baseline : Baseline E) (label : Text)
    (written : ∀ b ∈ baseline.buckets, Written U b) :
    Baseline.parse U (baseline.toYaml U) label = .ok baseline := by
  have header : ["---".toList, "version: 1".toList].foldlM (Scan.step U label) ({} : Scan E) =
      .ok { version := some (natText currentVersion, false) } := by
    rfl
  rw [Baseline.parse, lines_toYaml, Scan.foldlM_append_of_ok header]
  by_cases empty : baseline.buckets = []
  · rcases baseline with ⟨buckets⟩
    dsimp only at empty
    rw [if_pos empty, empty]
    rfl
  · have opened : Scan.step U label ({ version := some (natText currentVersion, false) } : Scan E)
        "ignored:".toList = .ok { version := some (natText currentVersion, false), inIgnored := true } := by
      rfl
    have start : Scan.Behind U label
        ({ version := some (natText currentVersion, false), inIgnored := true } : Scan E) [] :=
      ⟨rfl, rfl, fun _ mem => by simp at mem, rfl⟩
    rcases Scan.foldlM_rows start written with ⟨scan, rows, behind⟩
    rw [if_neg empty, List.foldlM_cons, opened]
    change (baseline.buckets.flatMap (rowLines U)).foldlM (Scan.step U label) _ >>= _ = _
    rw [rows]
    exact Scan.finish_of_behind behind

end Rows

end Rigor.Cli
