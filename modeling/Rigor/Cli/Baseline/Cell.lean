import Rigor.Cli.Baseline.Spelling

/-!
# One field read back

Between two keys of a row only the field of the first key grows.  A cell holds this
field and the two variables of the row that its growth depends on.  `Carries` says
for which values the cell of the written lines decodes to the value again.
-/

namespace Rigor.Cli

open Rigor.Rust

/-- A line that never joins a scalar: the document marker or a comment. -/
def skipped (trimmed : Text) : Bool :=
  trimmed = "---".toList || trimmed.head? = some '#'

structure Cell where
  value : Option FieldVal
  quoteOpen : Bool := false
  pendingBreaks : Nat := 0

namespace Cell

/-- The cell after the line of its key. -/
def start (head : Text) (kind : ScalarKind) : Cell :=
  let fv : FieldVal := { raw := head, kind := kind }
  if head = [] then { value := none }
  else { value := some fv, quoteOpen := fv.wasQuoted && !fv.closed }

/-- A continuation line. -/
def resume (cell : Cell) (rawLine : Text) : Cell :=
  let fv := (cell.value.getD {}).extend cell.pendingBreaks rawLine
  { value := some fv, quoteOpen := cell.quoteOpen && !fv.closed }

/-- A line that is deeper than the keys, or inside an open quote. -/
def feed (cell : Cell) (rawLine : Text) : Cell :=
  let trimmed := Text.trim rawLine
  if skipped trimmed then cell
  else if trimmed = [] then { cell with pendingBreaks := cell.pendingBreaks + 1 }
  else cell.resume (if cell.quoteOpen then trimmed else rawLine)

def decoded (cell : Cell) : Option Text :=
  cell.value.bind FieldVal.decodedNonnull

end Cell

/-- The cell of a key's lines as the writer wrote them. -/
def cellOf (U : UnicodeTables) (start value : Text) : Cell :=
  let spelled := spelling U start value
  let (head, kind) := scalarHead (Text.trim spelled.1)
  (spelled.2.map Text.stripReturn).foldl Cell.feed (Cell.start head kind)

/-- A line of a block that the reader keeps as it is. -/
def LineKept (line : Text) : Prop :=
  line ≠ [] → Text.trim line ≠ [] ∧ skipped (Text.trim line) = false ∧ line.getLast? ≠ some '\r'

/-- The values that survive the writer's style. -/
def Carries (U : UnicodeTables) (start value : Text) : Prop :=
  match scalarStyle U value with
  | .double => True
  | .taggedSingle => True
  | .single => '\n' ∉ value
  | .plain =>
      let pieces := foldPieces continuationIndent start.length value
      Text.trim pieces.1 = pieces.1 ∧
        ∀ piece ∈ pieces.2, Text.trim piece = piece ∧ skipped piece = false
  | .literal =>
      let lines := literalLines value
      ¬ ['\n', '\n'] <:+ value ∧ (∀ line ∈ lines, LineKept line) ∧
        ∀ line, lines.find? (· ≠ []) = some line → Text.trimStart line = line

/-! ## Lines -/

theorem trim_indented (line : Text) :
    Text.trim (Text.stripReturn (indented line)) = Text.trim line := by
  rw [Text.trim_stripReturn, indented, Text.trim_append_of_blank]
  intro c mem
  rw [List.eq_of_mem_replicate mem]
  rfl

theorem stripReturn_indented {line : Text} (nonempty : line ≠ []) :
    Text.stripReturn (indented line) = indented (Text.stripReturn line) :=
  Text.stripReturn_append nonempty _

theorem not_return_of_trim {line : Text} (trimmed : Text.trim line = line) :
    line.getLast? ≠ some '\r' := by
  intro last
  have visible := Text.trimEnd_eq_self_iff.mp (Text.trim_eq_self_iff.mp trimmed).2 _ last
  exact absurd visible (by decide)

/-! ## Heads -/

theorem scalarHead_plain {text : Text} (head : ∀ c, text.head? = some c → c ∉ indicators)
    (noComment : ¬ " #".toList <:+: text) (trimmed : Text.trimEnd text = text) :
    scalarHead text = (text, .plain) := by
  have uncut : cutComment text = text := by
    rw [← Text.find_isSome_iff, Bool.not_eq_true, Option.isSome_eq_false_iff,
      Option.isNone_iff_eq_none] at noComment
    rw [cutComment, noComment]
    exact trimmed
  cases text with
  | nil => simp [scalarHead, dropTag, uncut]
  | cons c text =>
      have differs : ∀ d ∈ indicators, c ≠ d := fun d isIndicator same =>
        head c rfl (same ▸ isIndicator)
      have hash := differs '#' (by decide)
      have tag := differs '!' (by decide)
      have double := differs '"' (by decide)
      have single := differs '\'' (by decide)
      have literal := differs '|' (by decide)
      have folded := differs '>' (by decide)
      have untagged : dropTag (c :: text) = c :: text := by simp [dropTag, tag]
      simp [scalarHead, hash, untagged, double, single, literal, folded, uncut]

/-! ## Values that survive -/

theorem FieldVal.decodedNonnull_of_decode {fv : FieldVal} {value : Text} (decoded : fv.decode = value)
    (present : fv.kind = .plain → FieldVal.isNull value = false) :
    fv.decodedNonnull = some value := by
  rw [decodedNonnull, decoded, if_neg]
  rintro ⟨plain, null⟩
  simp [present plain] at null

namespace Cell

/-- The value is there, and no quote is open. -/
def Holds (cell : Cell) (value : Text) : Prop :=
  cell.decoded = some value ∧ cell.quoteOpen = false

theorem holds_of_closed {head : Text} {kind : ScalarKind} {value : Text} (nonempty : head ≠ [])
    (quoted : kind ≠ .plain) (closed : FieldVal.closed { raw := head, kind := kind } = true)
    (decoded : FieldVal.decode { raw := head, kind := kind } = value) :
    (start head kind).Holds value := by
  rw [start, if_neg nonempty, closed]
  refine ⟨?_, by simp⟩
  exact FieldVal.decodedNonnull_of_decode decoded fun plain => absurd plain quoted

end Cell

section Carried

variable {U : UnicodeTables} {start value : Text}

theorem holds_double (style : scalarStyle U value = .double) :
    (cellOf U start value).Holds value := by
  have head : cellOf U start value = Cell.start (doubleQuote value) .doubleQuoted := by
    simp [cellOf, spelling, style, trim_doubleQuote, scalarHead_doubleQuote]
  rw [head]
  exact Cell.holds_of_closed (List.cons_ne_nil _ _) (by simp) (dqClosed_doubleQuote value)
    (unyamlScalar_doubleQuote value)

theorem holds_taggedSingle (style : scalarStyle U value = .taggedSingle) :
    (cellOf U start value).Holds value := by
  obtain rfl := eq_of_taggedSingle style
  have spelled : scalarHead (Text.trim ("!!str ".toList ++ singleQuote "<<".toList)) =
      (singleQuote "<<".toList, .singleQuoted) := by decide
  have head : cellOf U start "<<".toList = Cell.start (singleQuote "<<".toList) .singleQuoted := by
    simp only [cellOf, spelling, style, spelled]
    rfl
  rw [head]
  exact Cell.holds_of_closed (List.cons_ne_nil _ _) (by simp) (sqClosed_singleQuote "<<".toList)
    (unyamlScalar_singleQuote "<<".toList)

theorem holds_single (style : scalarStyle U value = .single) (noFeed : '\n' ∉ value) :
    (cellOf U start value).Holds value := by
  have noEnd : ¬ ['\n'] <:+ value := fun feed =>
    noFeed (feed.subset (List.mem_singleton_self _))
  have head : cellOf U start value = Cell.start (singleQuote value) .singleQuoted := by
    simp [cellOf, spelling, style, noEnd, trim_singleQuote, scalarHead_singleQuote]
  rw [head]
  exact Cell.holds_of_closed (List.cons_ne_nil _ _) (by simp) (sqClosed_singleQuote _)
    (unyamlScalar_singleQuote _)

/-! ### Plain scalars -/

/-- A piece that is trimmed joins with a space. -/
theorem feed_piece {raw piece : Text} (nonempty : piece ≠ []) (trimmed : Text.trim piece = piece)
    (joins : skipped piece = false) :
    Cell.feed { value := some { raw := raw } } (Text.stripReturn (indented piece)) =
      { value := some { raw := raw ++ ' ' :: piece } } := by
  have whole : Text.stripReturn (indented piece) = indented piece := by
    rw [stripReturn_indented nonempty, Text.stripReturn_of_not (not_return_of_trim trimmed)]
  have trimLine : Text.trim (indented piece) = piece := by
    rw [← whole, trim_indented, trimmed]
  rw [whole, Cell.feed]
  simp [trimLine, joins, nonempty, Cell.resume, FieldVal.extend, FieldVal.foldBreak]

theorem foldl_feed_pieces {raw : Text} {pieces : List Text}
    (clean : ∀ piece ∈ pieces, piece ≠ [] ∧ Text.trim piece = piece ∧ skipped piece = false) :
    ((pieces.map indented).map Text.stripReturn).foldl Cell.feed { value := some { raw := raw } } =
      { value := some { raw := raw ++ pieces.flatMap (' ' :: ·) } } := by
  induction pieces generalizing raw with
  | nil => simp
  | cons piece pieces ih =>
      rw [List.forall_mem_cons] at clean
      obtain ⟨⟨nonempty, trimmed, joins⟩, rest⟩ := clean
      rw [List.map_cons, List.map_cons, List.foldl_cons, feed_piece nonempty trimmed joins, ih rest]
      simp

/-- The first piece of a plain scalar is not empty and starts like it. -/
theorem plain_firstPiece (style : scalarStyle U value = .plain) (short : start.length ≤ 80) :
    (foldPieces continuationIndent start.length value).1 ≠ [] ∧
      (foldPieces continuationIndent start.length value).1.head? = value.head? := by
  have pieces := foldPieces_ne_nil (by decide : continuationIndent ≤ 80) start.length
    (plain_ne_nil style) (plain_last style)
  have nonempty := pieces.1.resolve_right (Nat.not_lt.mpr short)
  refine ⟨nonempty, ?_⟩
  have joined := foldPieces_join continuationIndent start.length value
  rw [← List.head?_append_of_ne_nil _ nonempty, joined]

theorem trimEnd_pieces {raw : Text} {pieces : List Text} (trimmed : Text.trimEnd raw = raw)
    (clean : ∀ piece ∈ pieces, piece ≠ [] ∧ Text.trim piece = piece ∧ skipped piece = false) :
    Text.trimEnd (raw ++ pieces.flatMap (' ' :: ·)) = raw ++ pieces.flatMap (' ' :: ·) := by
  induction pieces generalizing raw with
  | nil => simpa using trimmed
  | cons piece pieces ih =>
      rw [List.forall_mem_cons] at clean
      obtain ⟨⟨nonempty, pieceTrimmed, -⟩, rest⟩ := clean
      have longer : Text.trimEnd (raw ++ ' ' :: piece) = raw ++ ' ' :: piece := by
        rw [Text.trimEnd_eq_self_iff]
        intro c last
        rw [List.getLast?_append_of_ne_nil _ (List.cons_ne_nil _ _),
          List.getLast?_cons_of_ne_nil nonempty] at last
        exact Text.trimEnd_eq_self_iff.mp (Text.trim_eq_self_iff.mp pieceTrimmed).2 c last
      have step := ih longer rest
      rwa [List.append_assoc, List.cons_append] at step

theorem quoted_eq_none {quote : Char} {text : Text} (head : text.head? ≠ some quote) :
    quoted quote text = none :=
  if_neg fun both => head both.2.1

theorem cellOf_plain (style : scalarStyle U value = .plain) :
    cellOf U start value =
      (((foldPieces continuationIndent start.length value).2.map indented).map
        Text.stripReturn).foldl Cell.feed
        (Cell.start (scalarHead (Text.trim (foldPieces continuationIndent start.length value).1)).1
          (scalarHead (Text.trim (foldPieces continuationIndent start.length value).1)).2) := by
  simp only [cellOf, spelling, style]

theorem holds_plain (style : scalarStyle U value = .plain) (short : start.length ≤ 80)
    (carries : Carries U start value) : (cellOf U start value).Holds value := by
  rw [Carries, style] at carries
  obtain ⟨firstTrimmed, clean⟩ := carries
  obtain ⟨nonempty, sameHead⟩ := plain_firstPiece style short
  have pieces := foldPieces_ne_nil (by decide : continuationIndent ≤ 80) start.length
    (plain_ne_nil style) (plain_last style)
  have joined := foldPieces_join continuationIndent start.length value
  rw [cellOf_plain style]
  generalize foldPieces continuationIndent start.length value = folded at *
  obtain ⟨startTrimmed, endTrimmed⟩ := Text.trim_eq_self_iff.mp firstTrimmed
  have special : ∀ c, folded.1.head? = some c → c ∉ indicators := by
    rw [sameHead]
    exact fun c => plain_head style
  have noComment : ¬ " #".toList <:+: folded.1 := by
    intro comment
    refine plain_noComment style (comment.trans ?_)
    rw [← joined]
    exact (List.prefix_append _ _).isInfix
  have head := scalarHead_plain special noComment endTrimmed
  have allClean : ∀ piece ∈ folded.2, piece ≠ [] ∧ Text.trim piece = piece ∧ skipped piece = false :=
    fun piece mem => ⟨pieces.2 piece mem, clean piece mem⟩
  have begun : Cell.start folded.1 .plain = { value := some { raw := folded.1 } } := by
    simp [Cell.start, nonempty, FieldVal.wasQuoted]
  have valueTrimmed : Text.trim value = value := by
    refine Text.trim_eq_self_iff.mpr ⟨?_, ?_⟩
    · rw [Text.trimStart_eq_self_iff, ← sameHead]
      exact Text.trimStart_eq_self_iff.mp startTrimmed
    · rw [← joined]
      exact trimEnd_pieces endTrimmed allClean
  have notSingle : value.head? ≠ some '\'' := fun first => plain_head style first (by decide)
  have notDouble : value.head? ≠ some '"' := fun first => plain_head style first (by decide)
  rw [firstTrimmed, head, begun, foldl_feed_pieces allClean, joined]
  refine ⟨FieldVal.decodedNonnull_of_decode ?_ fun _ => plain_notNull style, rfl⟩
  change unyamlScalar value = value
  rw [unyamlScalar, valueTrimmed, quoted_eq_none notSingle, quoted_eq_none notDouble]

end Carried

/-! ## Literal blocks -/

theorem len_trimStart_le (text : Text) : Text.len (Text.trimStart text) ≤ Text.len text := by
  have parts : text.takeWhile isWhitespace ++ Text.trimStart text = text :=
    List.takeWhile_append_dropWhile
  have total := Text.len_append (text.takeWhile isWhitespace) (Text.trimStart text)
  rw [parts] at total
  omega

/-- The indentation of a line that the writer moved to the right. -/
theorem indentOf_indented (line : Text) :
    FieldVal.indentOf (indented line) = continuationIndent + FieldVal.indentOf line := by
  have blank : (List.replicate continuationIndent ' ').all isWhitespace = true := rfl
  rw [FieldVal.indentOf, indented, Text.trimStart_append_of_blank (List.all_eq_true.mp blank),
    Text.len_append, FieldVal.indentOf, Nat.add_sub_assoc (len_trimStart_le line)]
  rfl

/-- A line cut at the indentation of the block. -/
theorem splitAt_indented (line : Text) :
    ((Text.splitAt continuationIndent (indented line)).map Prod.snd).getD [] = line := by
  have cut : Text.splitAt continuationIndent (indented line) = some (_, line) :=
    Text.splitAt_append (List.replicate continuationIndent ' ') line
  rw [cut]
  rfl

/-- A block that has read some lines and some blank ones after them. -/
def Cell.block (header : Text) (chomp : Chomp) (content : List Text) (pending : Nat) : Cell where
  value := some
    { raw := header
      kind := .block false chomp
      lines := content
      blockIndent := if content = [] then none else some continuationIndent }
  pendingBreaks := pending

/-- A line of the block, if the first one starts at the indentation. -/
theorem feed_line (header : Text) (chomp : Chomp) (content : List Text) (pending : Nat) {line : Text}
    (nonempty : line ≠ []) (kept : LineKept line)
    (first : content = [] → Text.trimStart line = line) :
    (Cell.block header chomp content pending).feed (Text.stripReturn (indented line)) =
      Cell.block header chomp (content ++ List.replicate pending [] ++ [line]) 0 := by
  rcases kept nonempty with ⟨visible, joins, noReturn⟩
  have whole : Text.stripReturn (indented line) = indented line := by
    rw [stripReturn_indented nonempty, Text.stripReturn_of_not noReturn]
  have trimLine : Text.trim (indented line) = Text.trim line := by
    rw [← whole, trim_indented]
  have indent : (if content = [] then none else some continuationIndent).getD
      (FieldVal.indentOf (indented line)) = continuationIndent := by
    by_cases empty : content = []
    · rw [if_pos empty, Option.getD_none, indentOf_indented, FieldVal.indentOf, first empty, Nat.sub_self,
        Nat.add_zero]
    · rw [if_neg empty, Option.getD_some]
  rw [whole, Cell.feed]
  simp only [trimLine, joins, visible, Bool.false_eq_true, if_false, Cell.block, Cell.resume,
    Option.getD_some, FieldVal.extend, indent, splitAt_indented, FieldVal.closed]
  simp

/-- All lines of a block. -/
theorem foldl_feed_lines (header : Text) (chomp : Chomp) {lines : List Text} (content : List Text)
    (pending : Nat) (kept : ∀ line ∈ lines, LineKept line)
    (first : content = [] → ∀ line, lines.find? (· ≠ []) = some line → Text.trimStart line = line) :
    ∃ content' pending', ((lines.map fun line => if line = [] then [] else indented line).map
          Text.stripReturn).foldl Cell.feed (Cell.block header chomp content pending) =
        Cell.block header chomp content' pending' ∧
      content' ++ List.replicate pending' [] = content ++ List.replicate pending [] ++ lines := by
  induction lines generalizing content pending with
  | nil => exact ⟨content, pending, rfl, (List.append_nil _).symm⟩
  | cons line lines ih =>
      rw [List.forall_mem_cons] at kept
      rw [List.map_cons, List.map_cons, List.foldl_cons]
      by_cases blank : line = []
      · rw [if_pos blank]
        have later : content = [] → ∀ line, lines.find? (· ≠ []) = some line →
            Text.trimStart line = line := by
          intro empty line' found
          apply first empty
          rwa [List.find?_cons_of_neg (by simp [blank])]
        rcases ih content (pending + 1) kept.2 later with ⟨content', pending', cell, read⟩
        refine ⟨content', pending', cell, read.trans ?_⟩
        simp [blank, List.replicate_succ']
      · rw [if_neg blank, feed_line header chomp content pending blank kept.1 fun empty =>
          first empty line (List.find?_cons_of_pos (by simpa using blank))]
        rcases ih (content ++ List.replicate pending [] ++ [line]) 0 kept.2 (by simp) with
          ⟨content', pending', cell, read⟩
        exact ⟨content', pending', cell, by simpa using read⟩

theorem joinBlock_false (lines : List Text) : joinBlock false lines = ['\n'].intercalate lines := by
  induction lines with
  | nil => rfl
  | cons line lines ih =>
      cases lines with
      | nil => simp [joinBlock]
      | cons next rest =>
          rw [joinBlock, ih, Library.Separated.intercalate_cons_of_ne_nil '\n' line (List.cons_ne_nil _ _)]
          rfl

/-- The last piece of a text that does not end in a line feed. -/
theorem getLast?_splitOn {front : Text} (nonempty : front ≠ []) (noFeed : ¬ ['\n'] <:+ front) :
    (front.splitOn '\n').getLast? ≠ some [] := by
  intro last
  rcases List.getLast?_eq_some_iff.mp last with ⟨init, pieces⟩
  have joined : ['\n'].intercalate (front.splitOn '\n') = front := List.intercalate_splitOn '\n'
  rw [pieces] at joined
  by_cases empty : init = []
  · rw [empty, List.nil_append, List.intercalate_singleton] at joined
    exact nonempty joined.symm
  · rw [Library.Separated.intercalate_append empty (List.cons_ne_nil _ _), List.intercalate_singleton]
      at joined
    exact noFeed ⟨_, joined⟩

theorem rdropWhile_feed {front : Text} (noFeed : ¬ ['\n'] <:+ front) :
    front.rdropWhile (fun c => decide (c = '\n')) = front := by
  rw [List.rdropWhile_eq_self_iff]
  intro nonempty atEnd
  apply noFeed
  rw [decide_eq_true_eq] at atEnd
  exact ⟨front.dropLast, by rw [← atEnd, List.dropLast_append_getLast]⟩

/-- No pending blank line is lost when the last line is not blank. -/
theorem eq_of_append_replicate {content lines : List Text} {pending : Nat}
    (read : content ++ List.replicate pending [] = lines) (last : lines.getLast? ≠ some []) :
    content = lines := by
  cases pending with
  | zero => simpa using read
  | succ pending =>
      rw [← read, List.replicate_succ', ← List.append_assoc, List.getLast?_concat] at last
      exact absurd rfl last

section Literal

variable {U : UnicodeTables} {start value : Text}

theorem exists_of_literal (style : scalarStyle U value = .literal) :
    ∃ front rest, value = front ++ '\n' :: rest ∧ rest ≠ [] := by
  unfold scalarStyle at style
  split_ifs at style with block
  rw [Option.any_eq_true] at block
  rcases block with ⟨⟨front, rest⟩, split, more⟩
  exact ⟨front, rest, (Text.of_splitOnce split).2, by simpa using more⟩

theorem scalarHead_literalHeader (value : Text) : scalarHead (Text.trim (literalHeader value)) =
    (literalHeader value, .block false
      (if ['\n', '\n'] <:+ value then .keep else if ['\n'] <:+ value then .clip else .strip)) := by
  unfold literalHeader
  split_ifs with keep clip
  · decide
  · decide
  · decide

/-- The lines of a block, and the line feeds after them. -/
theorem literalLines_spec (style : scalarStyle U value = .literal) (noKeep : ¬ ['\n', '\n'] <:+ value) :
    ∃ front, literalLines value = front.splitOn '\n' ∧ front ≠ [] ∧ ¬ ['\n'] <:+ front ∧
      value = if ['\n'] <:+ value then front ++ ['\n'] else front := by
  rcases exists_of_literal style with ⟨before, rest, whole, more⟩
  have nonempty : value ≠ [] := by
    rw [whole]
    simp
  by_cases clip : ['\n'] <:+ value
  · rcases clip with ⟨front, rfl⟩
    have noFeed : ¬ ['\n'] <:+ front := by
      rintro ⟨init, rfl⟩
      exact noKeep ⟨init, by simp⟩
    have some : front ≠ [] := by
      rintro rfl
      cases before with
      | nil => exact more (List.cons.inj whole).2.symm
      | cons c before => simpa using congrArg List.length whole
    refine ⟨front, ?_, some, noFeed, (if_pos (List.suffix_append _ _)).symm⟩
    have pieces : (front ++ ['\n']).splitOn '\n' = front.splitOn '\n' ++ [[]] := by
      rw [List.splitOn_append_cons_self, List.splitOn_nil]
    rw [literalLines, pieces]
    simp
  · refine ⟨value, ?_, nonempty, clip, (if_neg clip).symm⟩
    exact if_neg (getLast?_splitOn nonempty clip)

theorem holds_literal (style : scalarStyle U value = .literal) (carries : Carries U start value) :
    (cellOf U start value).Holds value := by
  rw [Carries, style] at carries
  rcases carries with ⟨noKeep, kept, first⟩
  rcases literalLines_spec style noKeep with ⟨front, lines, nonempty, noFeed, whole⟩
  have begun : Cell.start (literalHeader value) (.block false
      (if ['\n'] <:+ value then .clip else .strip)) =
      Cell.block (literalHeader value) (if ['\n'] <:+ value then .clip else .strip) [] 0 := by
    have present : literalHeader value ≠ [] := by
      unfold literalHeader
      split_ifs <;> decide
    rw [Cell.start, if_neg present]
    rfl
  rcases foldl_feed_lines (literalHeader value) (if ['\n'] <:+ value then .clip else .strip) [] 0 kept
    (fun _ => first) with ⟨content, pending, cell, read⟩
  have same : content = front.splitOn '\n' := by
    rw [List.replicate_zero, List.append_nil, List.nil_append, lines] at read
    exact eq_of_append_replicate read (getLast?_splitOn nonempty noFeed)
  have spelled : cellOf U start value =
      Cell.block (literalHeader value) (if ['\n'] <:+ value then .clip else .strip) content pending := by
    simp only [cellOf, spelling, style, scalarHead_literalHeader, if_neg noKeep, begun]
    exact cell
  have joined : joinBlock false content = front := by
    rw [joinBlock_false, same, List.intercalate_splitOn]
  have filled : content ≠ [] := same ▸ List.splitOn_ne_nil _ _
  have decoded : blockValue content false (if ['\n'] <:+ value then .clip else .strip) = value := by
    by_cases clip : ['\n'] <:+ value
    · rw [if_pos clip] at whole ⊢
      rw [blockValue, joined, if_neg filled, rdropWhile_feed noFeed, ← whole]
    · rw [if_neg clip] at whole ⊢
      rw [blockValue, joined, rdropWhile_feed noFeed, ← whole]
  rw [spelled]
  constructor
  · change FieldVal.decodedNonnull ⟨_, .block false _, content, _⟩ = some value
    exact FieldVal.decodedNonnull_of_decode decoded fun plain => by simp at plain
  · rfl

/-- A value that its style carries is read back. -/
theorem holds_of_carries (short : start.length ≤ 80) (carries : Carries U start value) :
    (cellOf U start value).Holds value := by
  cases style : scalarStyle U value with
  | plain => exact holds_plain style short carries
  | single =>
      rw [Carries, style] at carries
      exact holds_single style carries
  | double => exact holds_double style
  | taggedSingle => exact holds_taggedSingle style
  | literal => exact holds_literal style carries

end Literal

end Rigor.Cli
