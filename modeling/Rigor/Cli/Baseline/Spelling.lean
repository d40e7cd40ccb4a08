import Rigor.Cli.Baseline.Yaml

/-!
# The spelling of a scalar

What the writer puts after a key, line by line, and what the reader decodes from a
scalar in quotes.
-/

namespace Rigor.Cli

open Rigor.Rust

/-! ## Single quotes -/

/-- The closing apostrophe of a spelled value comes after it. -/
theorem singleSpan_doubleApostrophes (value rest : Text) :
    singleSpan (doubleApostrophes value ++ rest) =
      (singleSpan rest).map (doubleApostrophes value ++ ·) := by
  induction value with
  | nil => simp [doubleApostrophes]
  | cons c value ih =>
      rw [doubleApostrophes] at ih
      by_cases apostrophe : c = '\''
      · simp [doubleApostrophes, apostrophe, singleSpan, ih, Function.comp_def]
      · simp [doubleApostrophes, apostrophe, singleSpan, ih, Function.comp_def]

@[simp]
theorem mergeApostrophes_doubleApostrophes (value : Text) :
    mergeApostrophes (doubleApostrophes value) = value := by
  induction value with
  | nil => rfl
  | cons c value ih =>
      rw [doubleApostrophes] at ih
      by_cases apostrophe : c = '\''
      · simp [doubleApostrophes, apostrophe, mergeApostrophes, ih]
      · simp [doubleApostrophes, apostrophe, mergeApostrophes, ih]

theorem trim_singleQuote (value : Text) : Text.trim (singleQuote value) = singleQuote value :=
  Text.trim_of_ends (by decide) (by decide) _

theorem scalarHead_singleQuote (value : Text) :
    scalarHead (singleQuote value) = (singleQuote value, .singleQuoted) := by
  have closing : singleSpan (doubleApostrophes value ++ ['\'']) =
      some (doubleApostrophes value ++ ['\'']) :=
    singleSpan_doubleApostrophes value ['\'']
  simp [scalarHead, singleQuote, dropTag, closing]

theorem sqClosed_singleQuote (value : Text) : sqClosed (singleQuote value) = true := by
  simp [sqClosed, singleQuote, singleSpan_doubleApostrophes, singleSpan]

theorem quoted_of_ends (quote : Char) (inner : Text) :
    quoted quote (quote :: (inner ++ [quote])) = some inner := by
  rw [← List.cons_append, quoted, if_pos]
  · rw [List.cons_append, List.tail_cons, List.dropLast_concat]
  · exact ⟨by simp, rfl, List.getLast?_concat⟩

@[simp]
theorem unyamlScalar_singleQuote (value : Text) : unyamlScalar (singleQuote value) = value := by
  rw [unyamlScalar, trim_singleQuote, singleQuote, List.cons_append, quoted_of_ends]
  exact mergeApostrophes_doubleApostrophes value

/-! ## Double quotes -/

theorem hexDigit_upperHex {n : Nat} (small : n < 16) : hexDigit (upperHex n) = some n := by
  have each : ∀ n : Fin 16, hexDigit (upperHex n) = some n.val := by decide
  exact each ⟨n, small⟩

theorem upperHex_ne {n : Nat} (small : n < 16) :
    upperHex n ≠ '"' ∧ upperHex n ≠ '\\' ∧ upperHex n ≠ '\n' := by
  have each : ∀ n : Fin 16, upperHex n ≠ '"' ∧ upperHex n ≠ '\\' ∧ upperHex n ≠ '\n' := by decide
  exact each ⟨n, small⟩

theorem toNat_lt_of_isControl {c : Char} (control : isControl c = true) : c.toNat < 256 := by
  simp only [isControl, Bool.or_eq_true, decide_eq_true_eq, Bool.and_eq_true] at control
  omega

theorem hexEscape_upperHex {c : Char} (control : isControl c = true) (rest : Text) :
    hexEscape 0 2 (upperHex (c.toNat / 16) :: upperHex (c.toNat % 16) :: rest) = (c, rest) := by
  have small := toNat_lt_of_isControl control
  have value : (0 * 16 + c.toNat / 16) * 16 + c.toNat % 16 = c.toNat := by omega
  rw [hexEscape, hexDigit_upperHex (by omega)]
  dsimp only
  rw [hexEscape, hexDigit_upperHex (Nat.mod_lt _ (by omega))]
  dsimp only
  rw [hexEscape, value, Char.ofNat_toNat]
  exact congrArg (·, rest) (if_pos c.valid)

/-- Every escape is read back. -/
theorem unescapeDouble_doubleEscape (c : Char) (rest : Text) :
    unescapeDouble (doubleEscape c ++ rest) = c :: unescapeDouble rest := by
  unfold doubleEscape
  split_ifs with quote backslash newline tab carriage control
  · subst quote; simp [unescapeDouble, simpleEscape]
  · subst backslash; simp [unescapeDouble, simpleEscape]
  · subst newline; simp [unescapeDouble, simpleEscape]
  · subst tab; simp [unescapeDouble, simpleEscape]
  · subst carriage; simp [unescapeDouble, simpleEscape]
  · simp [unescapeDouble, simpleEscape, codeWidth, hexEscape_upperHex control]
  · rw [List.singleton_append, unescapeDouble]
    · exact fun same _ => backslash same
    · exact fun _ _ same _ => backslash same

/-- The closing quote of a spelled value comes after it. -/
theorem doubleSpan_doubleEscape (c : Char) (rest : Text) :
    doubleSpan (doubleEscape c ++ rest) = (doubleSpan rest).map (doubleEscape c ++ ·) := by
  unfold doubleEscape
  split_ifs with quote backslash newline tab carriage control
  · simp [doubleSpan]
  · simp [doubleSpan]
  · simp [doubleSpan]
  · simp [doubleSpan]
  · simp [doubleSpan]
  · have small := toNat_lt_of_isControl control
    have high := upperHex_ne (n := c.toNat / 16) (by omega)
    have low := upperHex_ne (n := c.toNat % 16) (by omega)
    simp [doubleSpan, high, low, Function.comp_def]
  · simp [doubleSpan, backslash]

theorem doubleSpan_flatMap (value rest : Text) :
    doubleSpan (value.flatMap doubleEscape ++ rest) =
      (doubleSpan rest).map (value.flatMap doubleEscape ++ ·) := by
  induction value with
  | nil => simp
  | cons c value ih =>
      rw [List.flatMap_cons, List.append_assoc, doubleSpan_doubleEscape, ih]
      simp [Function.comp_def]

theorem unescapeDouble_flatMap (value : Text) :
    unescapeDouble (value.flatMap doubleEscape) = value := by
  induction value with
  | nil => rw [List.flatMap_nil, unescapeDouble]
  | cons c value ih => rw [List.flatMap_cons, unescapeDouble_doubleEscape, ih]

theorem trim_doubleQuote (value : Text) : Text.trim (doubleQuote value) = doubleQuote value :=
  Text.trim_of_ends (by decide) (by decide) _

theorem scalarHead_doubleQuote (value : Text) :
    scalarHead (doubleQuote value) = (doubleQuote value, .doubleQuoted) := by
  have closing : doubleSpan (value.flatMap doubleEscape ++ ['"']) =
      some (value.flatMap doubleEscape ++ ['"']) :=
    doubleSpan_flatMap value ['"']
  simp [scalarHead, doubleQuote, dropTag, closing]

theorem dqClosed_doubleQuote (value : Text) : dqClosed (doubleQuote value) = true := by
  simp [dqClosed, doubleQuote, doubleSpan_flatMap, doubleSpan]

@[simp]
theorem unyamlScalar_doubleQuote (value : Text) : unyamlScalar (doubleQuote value) = value := by
  have notSingle : quoted '\'' (doubleQuote value) = none := by
    simp [quoted, doubleQuote]
  rw [unyamlScalar, trim_doubleQuote, notSingle, doubleQuote, List.cons_append, quoted_of_ends]
  exact unescapeDouble_flatMap value

/-! ## Folded plain scalars -/

/-- The pieces between the breaks of `foldPlain`: the first line's and the others'. -/
def foldPieces (indent : Nat) : Nat → Text → Text × List Text
  | _, [] => ([], [])
  | col, c :: rest =>
      if c = ' ' ∧ 80 < col then
        ([], (foldPieces indent indent rest).1 :: (foldPieces indent indent rest).2)
      else (c :: (foldPieces indent (col + 1) rest).1, (foldPieces indent (col + 1) rest).2)

theorem foldPlain_eq (indent col : Nat) (value : Text) :
    foldPlain indent col value =
      (foldPieces indent col value).1 ++
        (foldPieces indent col value).2.flatMap ('\n' :: List.replicate indent ' ' ++ ·) := by
  induction value generalizing col with
  | nil => rfl
  | cons c rest ih =>
      rw [foldPlain, foldPieces]
      split
      · simp [ih]
      · simp [ih]

/-- Each break stands for the space it replaced. -/
theorem foldPieces_join (indent col : Nat) (value : Text) :
    (foldPieces indent col value).1 ++ (foldPieces indent col value).2.flatMap (' ' :: ·) =
      value := by
  induction value generalizing col with
  | nil => rfl
  | cons c rest ih =>
      rw [foldPieces]
      split
      · rename_i broken
        simp [ih, broken.1]
      · simp [ih]

/-- The column is past the limit only when a piece has begun. -/
theorem foldPieces_ne_nil {indent : Nat} (narrow : indent ≤ 80) (col : Nat) {value : Text}
    (nonempty : value ≠ []) (noSpace : value.getLast? ≠ some ' ') :
    ((foldPieces indent col value).1 ≠ [] ∨ 80 < col) ∧
      ∀ piece ∈ (foldPieces indent col value).2, piece ≠ [] := by
  induction value generalizing col with
  | nil => exact absurd rfl nonempty
  | cons c rest ih =>
      rw [foldPieces]
      split
      · rename_i broken
        have more : rest ≠ [] := by
          rintro rfl
          exact noSpace (by rw [broken.1]; rfl)
        have restLast : rest.getLast? ≠ some ' ' := by
          rwa [List.getLast?_cons_of_ne_nil more] at noSpace
        have inner := ih indent more restLast
        refine ⟨Or.inr broken.2, List.forall_mem_cons.mpr ⟨?_, inner.2⟩⟩
        exact inner.1.resolve_right (Nat.not_lt.mpr narrow)
      · refine ⟨Or.inl (List.cons_ne_nil _ _), ?_⟩
        by_cases more : rest = []
        · simp [more, foldPieces]
        · have restLast : rest.getLast? ≠ some ' ' := by
            rwa [List.getLast?_cons_of_ne_nil more] at noSpace
          exact (ih (col + 1) more restLast).2

/-! ## Literal blocks -/

theorem not_mem_of_mem_splitOn {value line : Text} (mem : line ∈ value.splitOn '\n') :
    '\n' ∉ line := by
  induction value generalizing line with
  | nil =>
      rw [List.splitOn_nil, List.mem_singleton] at mem
      simp [mem]
  | cons c value ih =>
      rw [List.splitOn_cons_eq_if_modifyHead] at mem
      obtain ⟨first, rest, pieces⟩ := List.exists_cons_of_ne_nil (List.splitOn_ne_nil '\n' value)
      rw [pieces] at ih mem
      split at mem
      · rcases List.mem_cons.mp mem with rfl | later
        · simp
        · exact ih later
      · rename_i noFeed
        rw [List.modifyHead_cons] at mem
        rcases List.mem_cons.mp mem with rfl | later
        · rw [List.mem_cons, not_or]
          exact ⟨fun same => noFeed (by simp [same.symm]), ih List.mem_cons_self⟩
        · exact ih (List.mem_cons_of_mem _ later)

theorem not_mem_of_mem_literalLines {value line : Text} (mem : line ∈ literalLines value) :
    '\n' ∉ line := by
  rw [literalLines] at mem
  split at mem
  · exact not_mem_of_mem_splitOn (List.dropLast_subset _ mem)
  · exact not_mem_of_mem_splitOn mem

/-! ## Lines of a scalar -/

/-- The indentation of a continuation line. -/
def continuationIndent : Nat := 4

def indented (line : Text) : Text :=
  List.replicate continuationIndent ' ' ++ line

/-- What stands after the key, and the lines that follow. -/
def spelling (U : UnicodeTables) (start value : Text) : Text × List Text :=
  match scalarStyle U value with
  | .literal =>
      (literalHeader value, (literalLines value).map fun line => if line = [] then [] else indented line)
  | .taggedSingle => ("!!str ".toList ++ singleQuote value, [])
  | .single =>
      if ['\n'] <:+ value then ('\'' :: doubleApostrophes value.dropLast, [['\'']])
      else (singleQuote value, [])
  | .double => (doubleQuote value, [])
  | .plain =>
      ((foldPieces continuationIndent start.length value).1,
        (foldPieces continuationIndent start.length value).2.map indented)

theorem unlines_map_indented (lines : List Text) (first : Text) :
    Text.unlines (first :: lines.map indented) =
      first ++ lines.flatMap ('\n' :: List.replicate continuationIndent ' ' ++ ·) ++ ['\n'] := by
  induction lines generalizing first with
  | nil => simp
  | cons line lines ih =>
      rw [List.map_cons, Text.unlines_cons, ih, List.flatMap_cons]
      simp [indented]

/-- The writer writes the spelling, line by line. -/
theorem pushKv_eq (U : UnicodeTables) (start value : Text) :
    pushKv U start 2 value =
      Text.unlines ((start ++ (spelling U start value).1) :: (spelling U start value).2) := by
  rw [pushKv, spelling]
  cases scalarStyle U value with
  | literal => simp [continuationIndent, indented]
  | taggedSingle => simp
  | single =>
      dsimp only
      split
      · rename_i feed
        obtain ⟨front, rfl⟩ := feed
        simp [singleQuote, doubleApostrophes]
      · simp
  | double => simp
  | plain =>
      dsimp only
      rw [unlines_map_indented, foldPlain_eq]
      simp only [List.append_assoc]
      rfl

theorem not_mem_doubleApostrophes {value : Text} (noFeed : '\n' ∉ value) :
    '\n' ∉ doubleApostrophes value := by
  simp only [doubleApostrophes, List.mem_flatMap, not_exists, not_and]
  intro c mem
  split
  · decide
  · rw [List.mem_singleton]
    rintro rfl
    exact noFeed mem

theorem not_mem_doubleEscape (c : Char) : '\n' ∉ doubleEscape c := by
  unfold doubleEscape
  split_ifs with quote backslash newline tab carriage control
  · decide
  · decide
  · decide
  · decide
  · decide
  · have small := toNat_lt_of_isControl control
    have high := (upperHex_ne (n := c.toNat / 16) (by omega)).2.2
    have low := (upperHex_ne (n := c.toNat % 16) (by omega)).2.2
    simp [high.symm, low.symm]
  · simpa using fun same : '\n' = c => newline same.symm

/-- No text after the first line feed. -/
theorem exists_of_splitOnce {text : Text} (feed : '\n' ∈ text)
    (single : (Text.splitOnce '\n' text).any (fun (_, rest) => rest ≠ []) = false) :
    ∃ front, text = front ++ ['\n'] ∧ '\n' ∉ front := by
  induction text with
  | nil => simp at feed
  | cons c text ih =>
      rw [Text.splitOnce] at single
      split at single
      · rename_i isFeed
        exact ⟨[], by simpa [isFeed] using single, List.not_mem_nil⟩
      · rename_i differ
        have later : '\n' ∈ text := (List.mem_cons.mp feed).resolve_left (Ne.symm differ)
        rw [Option.any_map] at single
        obtain ⟨front, rfl, noFeed⟩ := ih later single
        refine ⟨c :: front, rfl, ?_⟩
        rw [List.mem_cons, not_or]
        exact ⟨Ne.symm differ, noFeed⟩

/-- A value that is no block has at most one line feed, at its end. -/
theorem feed_atEnd {U : UnicodeTables} {value : Text} (inline : scalarStyle U value ≠ .literal)
    (feed : '\n' ∈ value) : ∃ front, value = front ++ ['\n'] ∧ '\n' ∉ front := by
  refine exists_of_splitOnce feed ?_
  rw [Bool.eq_false_iff]
  intro block
  exact inline (if_pos block)

/-! ### Plain scalars -/

section Plain

variable {U : UnicodeTables} {value : Text} (plain : scalarStyle U value = .plain)

include plain

/-- What the writer's choice of the plain style excludes. -/
theorem plain_spec :
    needsSingleQuoting value = false ∧ value.any isControl = false := by
  unfold scalarStyle at plain
  split_ifs at plain with literal tagged boolean word single control
  exact ⟨Bool.eq_false_iff.mpr single, Bool.eq_false_iff.mpr control⟩

theorem plain_noFeed : '\n' ∉ value := by
  intro feed
  have control := (plain_spec plain).2
  rw [List.any_eq_false] at control
  exact control _ feed (by decide)

theorem plain_ne_nil : value ≠ [] := by
  rintro rfl
  have quoting := (plain_spec plain).1
  simp [needsSingleQuoting] at quoting

theorem plain_last : value.getLast? ≠ some ' ' := by
  intro last
  have quoting := (plain_spec plain).1
  simp [needsSingleQuoting, last] at quoting

theorem plain_noComment : ¬ " #".toList <:+: value := by
  intro comment
  have quoting := (plain_spec plain).1
  rw [← Text.contains_iff] at comment
  simp only [needsSingleQuoting, comment] at quoting
  simp at quoting

theorem plain_head {c : Char} (first : value.head? = some c) : c ∉ indicators := by
  intro indicator
  have quoting := (plain_spec plain).1
  simp [needsSingleQuoting, first, indicator] at quoting

theorem plain_notNull : FieldVal.isNull value = false := by
  have quoting := (plain_spec plain).1
  rw [Bool.eq_false_iff]
  intro null
  have reserved : value = [] ∨ value.map Char.toLower ∈ reservedWords := by
    simp only [FieldVal.isNull, Bool.or_eq_true, List.isEmpty_iff, decide_eq_true_eq] at null
    rcases null with (empty | tilde) | word
    · exact Or.inl empty
    · rw [tilde]
      exact Or.inr (by decide)
    · rw [word]
      exact Or.inr (by decide)
  rcases reserved with empty | reserved
  · exact plain_ne_nil plain empty
  · simp [needsSingleQuoting, scansAsNonstring, reserved] at quoting

end Plain

theorem foldPieces_subset (indent col : Nat) (value : Text) :
    (foldPieces indent col value).1 ⊆ value ∧
      ∀ piece ∈ (foldPieces indent col value).2, piece ⊆ value := by
  have joined := foldPieces_join indent col value
  constructor
  · intro c mem
    rw [← joined]
    exact List.mem_append_left _ mem
  · intro piece isPiece c mem
    rw [← joined]
    refine List.mem_append_right _ (List.mem_flatMap.mpr ⟨piece, isPiece, ?_⟩)
    exact List.mem_cons_of_mem _ mem

theorem eq_of_taggedSingle {U : UnicodeTables} {value : Text}
    (style : scalarStyle U value = .taggedSingle) : value = "<<".toList := by
  unfold scalarStyle at style
  split_ifs at style with literal tagged
  exact tagged

theorem not_mem_indented {line : Text} (noFeed : '\n' ∉ line) : '\n' ∉ indented line := by
  rw [indented, List.mem_append, not_or]
  exact ⟨by decide, noFeed⟩

/-- The spelling is made of lines. -/
theorem spelling_noFeed (U : UnicodeTables) (start value : Text) :
    '\n' ∉ (spelling U start value).1 ∧
      ∀ line ∈ (spelling U start value).2, '\n' ∉ line := by
  rw [spelling]
  cases style : scalarStyle U value with
  | literal =>
      refine ⟨?_, ?_⟩
      · dsimp only [literalHeader]
        split_ifs <;> decide
      · intro line mem
        obtain ⟨content, isLine, rfl⟩ := List.mem_map.mp mem
        split
        · exact List.not_mem_nil
        · exact not_mem_indented (not_mem_of_mem_literalLines isLine)
  | taggedSingle =>
      obtain rfl := eq_of_taggedSingle style
      have noFeed : '\n' ∉ "!!str ".toList ++ singleQuote "<<".toList := by decide
      exact ⟨noFeed, by simp⟩
  | single =>
      have inline : scalarStyle U value ≠ .literal := by simp [style]
      dsimp only
      split
      · rename_i feed
        have mem : '\n' ∈ value := feed.subset (List.mem_singleton_self _)
        obtain ⟨front, rfl, noFeed⟩ := feed_atEnd inline mem
        rw [List.dropLast_concat]
        refine ⟨?_, by simp⟩
        rw [List.mem_cons, not_or]
        exact ⟨by decide, not_mem_doubleApostrophes noFeed⟩
      · rename_i noEnd
        have noFeed : '\n' ∉ value := by
          intro feed
          obtain ⟨front, rfl, -⟩ := feed_atEnd inline feed
          exact noEnd (List.suffix_append _ _)
        exact ⟨by simp [singleQuote, not_mem_doubleApostrophes noFeed], by simp⟩
  | double =>
      refine ⟨?_, by simp⟩
      simp [doubleQuote, not_mem_doubleEscape]
  | plain =>
      have noFeed := plain_noFeed style
      have pieces := foldPieces_subset continuationIndent start.length value
      refine ⟨fun mem => noFeed (pieces.1 mem), ?_⟩
      intro line mem
      obtain ⟨piece, isPiece, rfl⟩ := List.mem_map.mp mem
      exact not_mem_indented fun feed => noFeed (pieces.2 piece isPiece feed)

end Rigor.Cli
