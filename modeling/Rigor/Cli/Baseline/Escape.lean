import Mathlib.Data.List.Infix
import Rigor.Cli.Baseline.Model

/-!
# Escaped sources

`regexpEscape` is a prefix code on characters: a structurally recursive decoder
reads every escaped source back.  Hence distinct messages have distinct sources,
and there is a concrete engine, matching escaped literals only, on which the
assumption about the `regex` crate holds.
-/

namespace Rigor.Cli

/-- Read an escaped source back; a metacharacter without its backslash and an
escape that `regexpEscape` never writes are rejected. -/
def unescapeLiteral : Text → Option Text
  | [] => some []
  | '\\' :: c :: rest =>
      if c = 't' then (unescapeLiteral rest).map ('\t' :: ·)
      else if c = 'n' then (unescapeLiteral rest).map ('\n' :: ·)
      else if c = 'v' then (unescapeLiteral rest).map ('\x0b' :: ·)
      else if c = 'f' then (unescapeLiteral rest).map ('\x0c' :: ·)
      else if c = 'r' then (unescapeLiteral rest).map ('\r' :: ·)
      else if c ∈ metaCharacters then (unescapeLiteral rest).map (c :: ·)
      else none
  | c :: rest => if c ∈ metaCharacters then none else (unescapeLiteral rest).map (c :: ·)

theorem unescapeLiteral_escapeChar_append (c : Char) (rest : Text) :
    unescapeLiteral (escapeChar c ++ rest) = (unescapeLiteral rest).map (c :: ·) := by
  unfold escapeChar
  split_ifs with tab newline vertical feed carriage isMeta
  · subst tab; rfl
  · subst newline; rfl
  · subst vertical; rfl
  · subst feed; rfl
  · subst carriage; rfl
  · have notLetter : c ≠ 't' ∧ c ≠ 'n' ∧ c ≠ 'v' ∧ c ≠ 'f' ∧ c ≠ 'r' := by
      refine ⟨?_, ?_, ?_, ?_, ?_⟩ <;>
      · rintro rfl
        exact absurd isMeta (by decide)
    simp [unescapeLiteral, notLetter, isMeta]
  · have notBackslash : c ≠ '\\' := by
      rintro rfl
      exact isMeta (by decide)
    rw [List.singleton_append, unescapeLiteral.eq_3 _ _ (fun _ _ same _ => notBackslash same)]
    simp [isMeta]

/-- The decoder inverts the escape. -/
@[simp]
theorem unescapeLiteral_regexpEscape (s : Text) :
    unescapeLiteral (regexpEscape s) = some s := by
  induction s with
  | nil => rfl
  | cons c rest ih =>
      rw [regexpEscape, List.flatMap_cons, unescapeLiteral_escapeChar_append, ← regexpEscape, ih]
      rfl

theorem regexpEscape_injective : Function.Injective regexpEscape := by
  intro first second same
  have decoded := congrArg unescapeLiteral same
  simpa using decoded

/-- The documented meaning of an escaped source: it compiles, and the pattern
occurs in a text exactly when the literal does. -/
def RegexEngine.MatchesLiterals (E : RegexEngine) : Prop :=
  ∀ s, ∃ re, E.new (regexpEscape s) = .ok re ∧
    ∀ text, E.isMatch re text = true ↔ s <:+: text

/-- An engine for escaped literals only: a pattern is the literal it denotes. -/
def literalEngine : RegexEngine where
  Regex := Text
  new source :=
    match unescapeLiteral source with
    | some literal => .ok literal
    | none => .error "not an escaped literal".toList
  isMatch literal text := decide (literal <:+: text)

theorem literalEngine_matchesLiterals : literalEngine.MatchesLiterals := by
  intro s
  refine ⟨s, ?_, ?_⟩
  · simp [literalEngine]
  · intro text
    simp [literalEngine]

end Rigor.Cli
