import Mathlib.Data.List.Chain
import Rigor.Cli.Baseline.Generate
import Rigor.Cli.Baseline.RoundTrip

/-!
# Texts that survive the file

A plain scalar is broken at its spaces, and the reader trims every piece.  A text whose whitespace is single
spaces comes back whole, and so does the escaped source of any message without exotic whitespace.
-/

namespace Rigor.Cli

open Rigor.Rust

/-- Its whitespace is spaces, of which no two are neighbours and none stands before a document marker. -/
structure Tidy (value : Text) : Prop where
  spaces : ∀ c ∈ value, isWhitespace c = true → c = ' '
  single : ¬ "  ".toList <:+: value
  noMarker : ¬ " ---".toList <:+: value

instance (value : Text) : Decidable (Tidy value) :=
  decidable_of_iff ((value.all fun c => !isWhitespace c || c = ' ') = true ∧ ¬ "  ".toList <:+: value ∧
      ¬ " ---".toList <:+: value) <| by
    simp only [List.all_eq_true, Bool.or_eq_true, Bool.not_eq_true', decide_eq_true_eq,
      ← Bool.not_eq_true (isWhitespace _), ← imp_iff_not_or]
    exact ⟨fun ⟨spaces, single, noMarker⟩ => ⟨spaces, single, noMarker⟩,
      fun tidy => ⟨tidy.spaces, tidy.single, tidy.noMarker⟩⟩

theorem Tidy.noFeed {value : Text} (tidy : Tidy value) : '\n' ∉ value := fun feed =>
  absurd (tidy.spaces _ feed (by decide)) (by decide)

/-! ## Pieces of a tidy text -/

/-- What comes after a piece: nothing, or a space. -/
theorem flatMap_space (pieces : List Text) :
    pieces.flatMap (' ' :: ·) = [] ∨ ∃ rest, pieces.flatMap (' ' :: ·) = ' ' :: rest := by
  cases pieces with
  | nil => exact Or.inl rfl
  | cons piece pieces => exact Or.inr ⟨_, rfl⟩

section Pieces

variable {value : Text}

/-- The last character before a break or before the end. -/
theorem last_visible (tidy : Tidy value) (noEnd : value.getLast? ≠ some ' ') {front piece back : Text}
    (whole : value = front ++ piece ++ back) (follows : back = [] ∨ ∃ rest, back = ' ' :: rest) :
    Text.trimEnd piece = piece := by
  rw [Text.trimEnd_eq_self_iff]
  intro c last
  by_contra blank
  rcases List.getLast?_eq_some_iff.mp last with ⟨init, rfl⟩
  have space : c = ' ' := tidy.spaces c (by simp [whole]) (by simpa using blank)
  rcases follows with rfl | ⟨rest, rfl⟩
  · apply noEnd
    rw [whole, List.append_nil, ← List.append_assoc, List.getLast?_concat, space]
  · exact tidy.single ⟨front ++ init, rest, by simp [whole, space]⟩

/-- The first character after a break. -/
theorem first_visible (tidy : Tidy value) {front piece back : Text}
    (whole : value = front ++ ' ' :: piece ++ back) : Text.trimStart piece = piece := by
  rw [Text.trimStart_eq_self_iff]
  intro c first
  by_contra blank
  cases piece with
  | nil => simp at first
  | cons d piece =>
      obtain rfl : d = c := by simpa using first
      have space : d = ' ' := tidy.spaces d (by simp [whole]) (by simpa using blank)
      exact tidy.single ⟨front, piece ++ back, by simp [whole, space]⟩

/-- A piece after a break is no comment and no document marker. -/
theorem not_skipped (tidy : Tidy value) (noComment : ¬ " #".toList <:+: value) {front piece back : Text}
    (whole : value = front ++ ' ' :: piece ++ back) : skipped piece = false := by
  rw [skipped, Bool.or_eq_false_iff, decide_eq_false_iff_not, decide_eq_false_iff_not]
  constructor
  · rintro rfl
    exact tidy.noMarker ⟨front, back, by simp [whole]⟩
  · intro first
    rcases List.head?_eq_some_iff.mp first with ⟨rest, rfl⟩
    exact noComment ⟨front, rest ++ back, by simp [whole]⟩

theorem carries_of_tidy (U : UnicodeTables) (start : Text) (tidy : Tidy value) : Carries U start value := by
  unfold Carries
  cases style : scalarStyle U value with
  | double => exact trivial
  | taggedSingle => exact trivial
  | single => exact tidy.noFeed
  | literal =>
      rcases exists_of_literal style with ⟨front, rest, whole, -⟩
      exact absurd (whole ▸ List.mem_append_right _ List.mem_cons_self) tidy.noFeed
  | plain =>
      have joined := foldPieces_join continuationIndent start.length value
      generalize foldPieces continuationIndent start.length value = folded at joined
      constructor
      · rw [Text.trim_eq_self_iff]
        have whole : value = [] ++ folded.1 ++ folded.2.flatMap (' ' :: ·) := joined.symm
        refine ⟨?_, last_visible tidy (plain_last style) whole (flatMap_space _)⟩
        rw [Text.trimStart_eq_self_iff]
        intro c first
        by_contra blank
        have mem : c ∈ value := by
          rw [← joined]
          exact List.mem_append_left _ (List.mem_of_head? first)
        obtain rfl := tidy.spaces c mem (by simpa using blank)
        have atStart : value.head? = some ' ' := by
          rw [← joined, List.head?_append, first]
          rfl
        exact plain_head style atStart (by decide)
      · intro piece isPiece
        rcases List.append_of_mem isPiece with ⟨before, after, pieces⟩
        rw [pieces] at joined
        have whole : value = (folded.1 ++ before.flatMap (' ' :: ·)) ++ ' ' :: piece ++
            after.flatMap (' ' :: ·) := by
          rw [← joined]
          simp
        have whole' : value = (folded.1 ++ before.flatMap (' ' :: ·) ++ [' ']) ++ piece ++
            after.flatMap (' ' :: ·) := by
          rw [whole]
          simp
        exact ⟨Text.trim_eq_self_iff.mpr ⟨first_visible tidy whole,
          last_visible tidy (plain_last style) whole' (flatMap_space _)⟩,
          not_skipped tidy (plain_noComment style) whole⟩

end Pieces

/-! ## Escaped sources -/

/-- A space or a dash of an escaped source comes after its backslash. -/
def Escaped (before c : Char) : Prop :=
  c = ' ' ∨ c = '-' → before = '\\'

theorem escapeChar_spec (c : Char) : (escapeChar c).IsChain Escaped ∧
    ∀ first, (escapeChar c).head? = some first → first ≠ ' ' ∧ first ≠ '-' := by
  unfold escapeChar
  split_ifs with tab newline vertical feed carriage isMeta
  · simp [Escaped]
  · simp [Escaped]
  · simp [Escaped]
  · simp [Escaped]
  · simp [Escaped]
  · simp [Escaped]
  · constructor
    · exact List.isChain_singleton c
    · rintro first same
      obtain rfl : c = first := by simpa using same
      constructor
      · rintro rfl
        exact isMeta (by decide)
      · rintro rfl
        exact isMeta (by decide)

theorem escaped_regexpEscape (s : Text) : (regexpEscape s).IsChain Escaped ∧
    ∀ first, (regexpEscape s).head? = some first → first ≠ ' ' ∧ first ≠ '-' := by
  induction s with
  | nil => exact ⟨List.isChain_nil, by simp [regexpEscape]⟩
  | cons c s ih =>
      rcases escapeChar_spec c with ⟨block, first⟩
      have nonempty : escapeChar c ≠ [] := by
        unfold escapeChar
        split_ifs <;> simp
      rw [regexpEscape, List.flatMap_cons, ← regexpEscape]
      constructor
      · rw [List.isChain_append]
        refine ⟨block, ih.1, ?_⟩
        intro x _ y atStart special
        rcases ih.2 y atStart with ⟨noSpace, noDash⟩
        rcases special with rfl | rfl
        · exact absurd rfl noSpace
        · exact absurd rfl noDash
      · rwa [List.head?_append_of_ne_nil _ nonempty]

/-- The whitespace of an ASCII text. -/
def AsciiSpaces (s : Text) : Prop :=
  ∀ c ∈ s, isWhitespace c = true → c.toNat < 128

instance (s : Text) : Decidable (AsciiSpaces s) :=
  decidable_of_iff ((s.all fun c => !isWhitespace c || c.toNat < 128) = true) <| by
    simp only [AsciiSpaces, List.all_eq_true, Bool.or_eq_true, Bool.not_eq_true', decide_eq_true_eq,
      ← Bool.not_eq_true (isWhitespace _), ← imp_iff_not_or]

theorem eq_of_isWhitespace {c : Char} (blank : isWhitespace c = true) (ascii : c.toNat < 128) :
    c ∈ ['\t', '\n', '\x0b', '\x0c', '\r', ' '] := by
  have codes : c.toNat = 9 ∨ c.toNat = 10 ∨ c.toNat = 11 ∨ c.toNat = 12 ∨ c.toNat = 13 ∨ c.toNat = 32 := by
    simp only [isWhitespace, Bool.or_eq_true, Bool.and_eq_true, decide_eq_true_eq] at blank
    omega
  have named : ∀ d ∈ ['\t', '\n', '\x0b', '\x0c', '\r', ' '], c.toNat = d.toNat →
      c ∈ ['\t', '\n', '\x0b', '\x0c', '\r', ' '] :=
    fun d mem same => Char.toNat_inj.mp same ▸ mem
  rcases codes with code | code | code | code | code | code
  · exact named '\t' (by decide) code
  · exact named '\n' (by decide) code
  · exact named '\x0b' (by decide) code
  · exact named '\x0c' (by decide) code
  · exact named '\r' (by decide) code
  · exact named ' ' (by decide) code

theorem eq_space_of_mem_escapeChar {c d : Char} (ascii : isWhitespace c = true → c.toNat < 128)
    (mem : d ∈ escapeChar c) (blank : isWhitespace d = true) : d = ' ' := by
  unfold escapeChar at mem
  split_ifs at mem with tab newline vertical feed carriage isMeta
  · rcases (by simpa using mem : d = '\\' ∨ d = 't') with rfl | rfl <;> contradiction
  · rcases (by simpa using mem : d = '\\' ∨ d = 'n') with rfl | rfl <;> contradiction
  · rcases (by simpa using mem : d = '\\' ∨ d = 'v') with rfl | rfl <;> contradiction
  · rcases (by simpa using mem : d = '\\' ∨ d = 'f') with rfl | rfl <;> contradiction
  · rcases (by simpa using mem : d = '\\' ∨ d = 'r') with rfl | rfl <;> contradiction
  · rcases (by simpa using mem : d = '\\' ∨ d = c) with rfl | rfl
    · contradiction
    · have codes := eq_of_isWhitespace blank (ascii blank)
      simpa [tab, newline, vertical, feed, carriage] using codes
  · obtain rfl : d = c := by simpa using mem
    have codes := eq_of_isWhitespace blank (ascii blank)
    simpa [tab, newline, vertical, feed, carriage] using codes

/-- The source of a message is tidy, whatever the message says. -/
theorem tidy_regexpEscape {s : Text} (ascii : AsciiSpaces s) : Tidy (regexpEscape s) := by
  have chain := (escaped_regexpEscape s).1
  refine ⟨?_, ?_, ?_⟩
  · intro d mem blank
    rcases List.mem_flatMap.mp mem with ⟨c, inside, block⟩
    exact eq_space_of_mem_escapeChar (ascii c inside) block blank
  · intro twice
    have pair : ['\x20', ' '].IsChain Escaped := chain.infix twice
    simp [Escaped] at pair
  · intro marker
    have start : [' ', '-', '-', '-'].IsChain Escaped := chain.infix marker
    simp [Escaped] at start

/-! ## Generated baselines -/

/-- The texts of an entry as the two modes write them.  A long path or rule is folded at a blank; the reader
joins its lines by one blank and passes over a line `---`, so that two neighbouring blanks, or `---` behind a
blank, may not be read back.  The rules of the catalogue have no blank at all, and few paths have two.  A
message is written escaped: `regexp_escape` leaves no ASCII whitespace bare but any other, which the reader
trims at the ends of a line. -/
structure TidyEntry (entry : Entry) : Prop where
  path : Tidy entry.1
  rule : Tidy entry.2.ruleId
  message : AsciiSpaces entry.2.message

instance (entry : Entry) : Decidable (TidyEntry entry) :=
  decidable_of_iff (Tidy entry.1 ∧ Tidy entry.2.ruleId ∧ AsciiSpaces entry.2.message)
    ⟨fun ⟨path, rule, message⟩ => ⟨path, rule, message⟩, fun tidy => ⟨tidy.path, tidy.rule, tidy.message⟩⟩

namespace Baseline

variable {E : RegexEngine}

/-- Every row that `from_diagnostics` makes of tidy entries can be written. -/
theorem written_fromDiagnostics (U : UnicodeTables) (literals : E.MatchesLiterals) {entries : List Entry}
    (mode : MatchMode) (tidy : ∀ entry ∈ entries, TidyEntry entry) (few : entries.length < 2 ^ 63) :
    ∀ b ∈ (fromDiagnostics entries mode : Baseline E).buckets, Written U b := by
  intro b mem
  rw [buckets_fromDiagnostics, List.mem_map] at mem
  rcases mem with ⟨key, recorded, rfl⟩
  rw [List.mem_eraseDups] at recorded
  have positive : 0 < (recordedKeys mode entries).count key := List.count_pos_iff.mpr recorded
  have small : (recordedKeys mode entries).count key < 2 ^ 63 := by
    apply Nat.lt_of_le_of_lt _ few
    exact List.count_le_length.trans (List.length_filterMap_le _ _)
  rcases List.mem_filterMap.mp recorded with ⟨entry, inside, keyed⟩
  rcases entryKey_eq_some_iff.mp keyed with ⟨rule, ruled, rfl⟩
  rcases qualifiedRule_eq_some_iff.mp ruled with ⟨-, rfl⟩
  have clean := tidy entry inside
  cases mode with
  | rule =>
      exact
        { file := carries_of_tidy U _ clean.path
          rule := carries_of_tidy U _ clean.rule
          message := fun _ absent => by simp [bucketOfKey, Bucket.ruleRow] at absent
          compiles := fun _ absent => by simp [bucketOfKey, Bucket.ruleRow] at absent
          positive := by rwa [count_bucketOfKey]
          small := by rwa [count_bucketOfKey] }
  | message =>
      have source : ∀ (n : Nat) (message : Text), (bucketOfKey ⟨entry.1, entry.2.ruleId,
          some (regexpEscape entry.2.message)⟩ n : Bucket E).message = some message →
          message = regexpEscape entry.2.message := fun _ _ same => (Option.some.inj same).symm
      exact
        { file := carries_of_tidy U _ clean.path
          rule := carries_of_tidy U _ clean.rule
          message := fun message same => by
            rw [source _ message same]
            exact carries_of_tidy U _ (tidy_regexpEscape clean.message)
          compiles := fun message same => by
            rw [source _ message same]
            rcases literals entry.2.message with ⟨regex, compiled, -⟩
            exact ⟨regex, compiled⟩
          positive := by rwa [count_bucketOfKey]
          small := by rwa [count_bucketOfKey] }

end Baseline

end Rigor.Cli
