import Rigor.Library.Patterns
import Rigor.Rust.Lines

/-!
# Suppression directives

How `suppression.rs` finds a `# rigor:disable` directive in a comment and splits its
tokens, against the pattern that the scanner stands for.
-/

namespace Rigor.Rules.Suppression

open Rigor.Library.MaximalMunch Rigor.Library.Patterns Rigor.Rust

/-! ## The scanner -/

/-- The keywords of the directives. -/
inductive Directive where
  | disableFile
  | disable

def Directive.keyword : Directive → Text
  | .disableFile => "rigor:disable-file".toList
  | .disable => "rigor:disable".toList

/-- The characters that `match_directive` trims. -/
def isBlank (c : Char) : Bool :=
  c = ' ' || c = '\t'

/-- `match_directive`. -/
def matchDirective (text keyword : Text) : Option Text :=
  (Text.splitOnce '#' text).bind fun (_, rest) =>
    (Text.stripPrefix keyword (rest.dropWhile isBlank)).bind fun afterKw =>
      let trimmed := afterKw.dropWhile isBlank
      if Text.len trimmed = Text.len afterKw then none else some trimmed

/-- The characters at which `absorb_tokens` and `validate_suppression_tokens` split. -/
def isSeparator (c : Char) : Bool :=
  c = ' ' || c = '\t' || c = ','

/-- The nonempty pieces between separators. -/
def tokensBy (p : Char → Bool) (text : Text) : List Text :=
  (text.splitOnP p).filter (· ≠ [])

/-- The tokens of a directive in a comment. -/
def directiveTokens (directive : Directive) (text : Text) : Option (List Text) :=
  (matchDirective text directive.keyword).map (tokensBy isSeparator)

/-! ## The pattern -/

/-- `\s`. -/
def isSpace (c : Char) : Bool :=
  c ∈ [' ', '\t', '\n', '\r', '\x0b', '\x0c']

/-- `[\w.,\s-]`. -/
def inRules (c : Char) : Bool :=
  c.isAlphanum || c = '_' || c = '.' || c = ',' || c = '-' || isSpace c

/-- `[\s,]`. -/
def isDelimiter (c : Char) : Bool :=
  c = ',' || isSpace c

/-- `#\s*keyword\s+[\w.,\s-]+`, where `x+` is `xx*`. -/
def pattern (keyword : Text) : List (Item Char) :=
  [.literal ['#'], .star isSpace, .literal keyword, .one isSpace, .star isSpace, .one inRules,
    .star inRules]

/-- The capture of the pattern, the pieces from the sixth on, split at the delimiters. -/
def capturedTokens (pieces : List Text) : List Text :=
  tokensBy isDelimiter (pieces.drop 5).flatten

/-- The tokens that the pattern finds in a comment. -/
def referenceTokens (directive : Directive) (text : Text) : Option (List Text) :=
  (search (pattern directive.keyword) text).map capturedTokens

/-! ## Tokens -/

section Tokens

variable {p q : Char → Bool} {text token : Text} {c : Char}

theorem tokensBy_cons_of_pos (separator : p c = true) (text : Text) :
    tokensBy p (c :: text) = tokensBy p text := by
  rw [tokensBy, List.splitOnP_cons_eq_if_modifyHead, if_pos separator,
    List.filter_cons_of_neg (by simp), tokensBy]

theorem exists_mem_splitOnP_iff :
    (∃ token ∈ text.splitOnP p, c ∈ token) ↔ c ∈ text ∧ p c = false := by
  induction text with
  | nil => simp
  | cons a text ih =>
      obtain ⟨first, rest, pieces⟩ := List.exists_cons_of_ne_nil (List.splitOnP_ne_nil p text)
      rw [List.splitOnP_cons_eq_if_modifyHead]
      by_cases separator : p a = true
      · rw [if_pos separator, List.exists_mem_cons_iff]
        constructor
        · rintro (inNil | later)
          · nomatch inNil
          · have later := ih.mp later
            exact ⟨List.mem_cons_of_mem a later.1, later.2⟩
        · rintro ⟨mem, plain⟩
          rcases List.mem_cons.mp mem with rfl | later
          · rw [separator] at plain
            nomatch plain
          · exact Or.inr (ih.mpr ⟨later, plain⟩)
      · rw [pieces, List.exists_mem_cons_iff] at ih
        rw [if_neg separator, pieces, List.modifyHead_cons, List.exists_mem_cons_iff]
        constructor
        · rintro (inFirst | inRest)
          · rcases List.mem_cons.mp inFirst with rfl | inFirst
            · exact ⟨List.mem_cons_self, Bool.not_eq_true _ ▸ separator⟩
            · have later := ih.mp (Or.inl inFirst)
              exact ⟨List.mem_cons_of_mem a later.1, later.2⟩
          · have later := ih.mp (Or.inr inRest)
            exact ⟨List.mem_cons_of_mem a later.1, later.2⟩
        · rintro ⟨mem, plain⟩
          rcases List.mem_cons.mp mem with rfl | later
          · exact Or.inl List.mem_cons_self
          · rcases ih.mpr ⟨later, plain⟩ with inFirst | inRest
            · exact Or.inl (List.mem_cons_of_mem a inFirst)
            · exact Or.inr inRest

/-- The characters of the tokens are those that are no separators. -/
theorem exists_mem_tokensBy_iff :
    (∃ token ∈ tokensBy p text, c ∈ token) ↔ c ∈ text ∧ p c = false := by
  refine Iff.trans ?_ exists_mem_splitOnP_iff
  constructor
  · rintro ⟨token, mem, inside⟩
    exact ⟨token, List.mem_of_mem_filter mem, inside⟩
  · rintro ⟨token, mem, inside⟩
    exact ⟨token, List.mem_filter.mpr ⟨mem, by simp [List.ne_nil_of_mem inside]⟩, inside⟩

theorem tokensBy_congr (same : ∀ c ∈ text, p c = q c) : tokensBy p text = tokensBy q text := by
  suffices split : text.splitOnP p = text.splitOnP q by rw [tokensBy, split, tokensBy]
  induction text with
  | nil => rfl
  | cons c text ih =>
      rw [List.forall_mem_cons] at same
      rw [List.splitOnP_cons_eq_if_modifyHead, List.splitOnP_cons_eq_if_modifyHead, same.1, ih same.2]

theorem tokensBy_dropWhile (included : ∀ c, q c = true → p c = true) (text : Text) :
    tokensBy p (text.dropWhile q) = tokensBy p text := by
  induction text with
  | nil => rfl
  | cons c text ih =>
      by_cases inside : q c = true
      · rw [List.dropWhile_cons_of_pos inside, tokensBy_cons_of_pos (included c inside), ih]
      · rw [List.dropWhile_cons_of_neg inside]

end Tokens

/-! ## What the scanner accepts -/

/-- The first `#` is followed by blanks, the keyword and a blank; `after` is the rest. -/
def Scanned (keyword text after : Text) : Prop :=
  ∃ before blanks a, '#' ∉ before ∧ (∀ c ∈ blanks, isBlank c = true) ∧ isBlank a = true ∧
    text = before ++ '#' :: (blanks ++ (keyword ++ a :: after))

/-- Trimming is seen by the length unless there is nothing to trim. -/
theorem len_dropWhile_eq_iff {p : Char → Bool} {text : Text} :
    Text.len (text.dropWhile p) = Text.len text ↔ Stops p text := by
  cases text with
  | nil => simp
  | cons c rest =>
      rw [stops_cons]
      by_cases inside : p c = true
      · rw [List.dropWhile_cons_of_pos inside, Text.len_cons]
        have shorter : Text.len (rest.dropWhile p) ≤ Text.len rest := by
          have whole := congrArg Text.len (List.takeWhile_append_dropWhile (p := p) (l := rest))
          rw [Text.len_append] at whole
          omega
        have positive := Char.utf8Size_pos c
        constructor
        · intro same
          omega
        · intro outside
          rw [inside] at outside
          nomatch outside
      · rw [List.dropWhile_cons_of_neg inside]
        simpa using inside

theorem dropWhile_append_of_stops {p : Char → Bool} {front back : Text}
    (inside : ∀ c ∈ front, p c = true) (stops : Stops p back) : (front ++ back).dropWhile p = back := by
  rw [List.dropWhile_append_of_pos inside]
  cases back with
  | nil => rfl
  | cons c back =>
      rw [stops_cons] at stops
      rw [List.dropWhile_cons_of_neg (by simp [stops])]

/-- No keyword starts with a space. -/
theorem keyword_cons (directive : Directive) :
    ∃ rest, directive.keyword = 'r' :: rest := by
  cases directive <;> exact ⟨_, rfl⟩

theorem stops_keyword {p : Char → Bool} (outside : p 'r' = false) (directive : Directive)
    (back : Text) : Stops p (directive.keyword ++ back) := by
  obtain ⟨rest, keyword⟩ := keyword_cons directive
  rw [keyword, List.cons_append, stops_cons]
  exact outside

/-- The tail that `match_directive` returns. -/
theorem matchDirective_eq_some_iff {directive : Directive} {text tail : Text} :
    matchDirective text directive.keyword = some tail ↔
      ∃ after, Scanned directive.keyword text after ∧ tail = after.dropWhile isBlank := by
  constructor
  · intro found
    simp only [matchDirective, Option.bind_eq_some_iff, Option.ite_none_left_eq_some,
      Option.some.injEq] at found
    obtain ⟨⟨before, rest⟩, split, afterKw, stripped, trimmed, rfl⟩ := found
    obtain ⟨first, rfl⟩ := Text.of_splitOnce split
    rw [len_dropWhile_eq_iff] at trimmed
    match afterKw with
    | [] => exact absurd stops_nil trimmed
    | a :: after =>
        rw [stops_cons, Bool.not_eq_false] at trimmed
        refine ⟨after, ⟨before, rest.takeWhile isBlank, a, first, ?_, trimmed, ?_⟩, ?_⟩
        · exact fun c mem => List.mem_takeWhile_imp mem
        · rw [← Text.of_stripPrefix stripped, List.takeWhile_append_dropWhile]
        · rw [List.dropWhile_cons_of_pos trimmed]
  · rintro ⟨after, ⟨before, blanks, a, first, blank, isBlank_a, rfl⟩, rfl⟩
    have stops := stops_keyword (p := isBlank) (by decide) directive (a :: after)
    have trimmed : ¬Text.len ((a :: after).dropWhile isBlank) = Text.len (a :: after) := by
      rw [len_dropWhile_eq_iff, stops_cons, isBlank_a]
      exact Bool.noConfusion
    simp only [matchDirective, Text.splitOnce_append first, dropWhile_append_of_stops blank stops,
      Text.stripPrefix_append, Option.bind_some, if_neg trimmed]
    rw [List.dropWhile_cons_of_pos isBlank_a]

theorem directiveTokens_eq_some_iff {directive : Directive} {text : Text} {tokens : List Text} :
    directiveTokens directive text = some tokens ↔
      ∃ after, Scanned directive.keyword text after ∧ tokens = tokensBy isSeparator after := by
  have separator (c : Char) (blank : isBlank c = true) : isSeparator c = true := by
    simp only [isBlank, Bool.or_eq_true] at blank
    simp only [isSeparator, blank, Bool.or_eq_true, true_or]
  rw [directiveTokens, Option.map_eq_some_iff]
  constructor
  · rintro ⟨tail, found, rfl⟩
    obtain ⟨after, scanned, rfl⟩ := matchDirective_eq_some_iff.mp found
    exact ⟨after, scanned, tokensBy_dropWhile separator after⟩
  · rintro ⟨after, scanned, rfl⟩
    refine ⟨after.dropWhile isBlank, matchDirective_eq_some_iff.mpr ⟨after, scanned, rfl⟩, ?_⟩
    exact tokensBy_dropWhile separator after

end Rigor.Rules.Suppression
