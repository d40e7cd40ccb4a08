import Rigor.Rules.Suppression

/-!
# The scanner against the pattern

Where the pattern of a directive matches, what it captures, and the comments in which
the scanner finds the same tokens.
-/

namespace Rigor.Rules.Suppression

open Rigor.Library.MaximalMunch Rigor.Library.Patterns

/-! ## Where the pattern matches -/

/-- Behind a `#`: spaces, the keyword, a space, and a character of the capture, with
the text from this character on. -/
def Opens (keyword rest captured : Text) : Prop :=
  ∃ spaces a b after, (∀ c ∈ spaces, isSpace c = true) ∧ isSpace a = true ∧ inRules b = true ∧
    captured = b :: after ∧ rest = spaces ++ (keyword ++ a :: captured)

/-- The pattern after the keyword and one space. -/
def rulesItems : List (Item Char) :=
  [.star isSpace, .one inRules, .star inRules]

theorem inRules_of_isSpace {c : Char} (space : isSpace c = true) : inRules c = true := by
  rw [inRules, space, Bool.or_true]

theorem isDelimiter_of_isSpace {c : Char} (space : isSpace c = true) : isDelimiter c = true := by
  rw [isDelimiter, space, Bool.or_true]

theorem firstMatch_capture (b : Char) (after : Text) (inside : inRules b = true) :
    firstMatch [.one inRules, .star inRules] (b :: after) =
      some [[b], after.takeWhile inRules] := by
  rw [firstMatch_one_cons inside, firstMatch_star_nil, Option.map_some]

/-- However many spaces the capture leaves to `\s+`, its tokens are those of the whole
run of the class. -/
theorem capture_rulesItems (text : Text) :
    (firstMatch rulesItems text).map (fun pieces => tokensBy isDelimiter (pieces.drop 1).flatten) =
      if (text.head?.any inRules) = true then some (tokensBy isDelimiter (text.takeWhile inRules))
      else none := by
  let capture (back : Text) : Option (List Text) :=
    (firstMatch [.one inRules, .star inRules] back).map fun pieces =>
      tokensBy isDelimiter pieces.flatten
  have captures (b : Char) (after : Text) (inside : inRules b = true) :
      capture (b :: after) = some (tokensBy isDelimiter ((b :: after).takeWhile inRules)) := by
    simp only [capture, firstMatch_capture b after inside, Option.map_some,
      List.takeWhile_cons_of_pos inside]
    simp
  have unfolded : (firstMatch rulesItems text).map
      (fun pieces => tokensBy isDelimiter (pieces.drop 1).flatten) =
        (greedy isSpace text).findSome? fun split => capture split.2 := by
    rw [rulesItems, firstMatch, Item.splits, List.map_findSome?]
    congr 1
    funext split
    simp [capture, Function.comp_def]
  rw [unfolded]
  clear unfolded
  induction text with
  | nil => rfl
  | cons b after ih =>
      by_cases space : isSpace b = true
      · have inside := inRules_of_isSpace space
        have skip : tokensBy isDelimiter ((b :: after).takeWhile inRules) =
            tokensBy isDelimiter (after.takeWhile inRules) := by
          rw [List.takeWhile_cons_of_pos inside,
            tokensBy_cons_of_pos (isDelimiter_of_isSpace space)]
        rw [findSome?_greedy_cons space, ih, List.head?_cons, Option.any_some, if_pos inside]
        refine (congrArg (Option.or _) (captures b after inside)).trans ?_
        rw [skip]
        split_ifs <;> rfl
      · have stops : Stops isSpace (b :: after) := stops_cons.mpr (Bool.not_eq_true _ ▸ space)
        rw [findSome?_greedy_of_stops stops, List.head?_cons, Option.any_some]
        by_cases inside : inRules b = true
        · rw [if_pos inside]
          exact captures b after inside
        · have outside : Stops inRules (b :: after) := stops_cons.mpr (Bool.not_eq_true _ ▸ inside)
          rw [if_neg inside]
          simp only [capture, firstMatch_one_of_stops outside, Option.map_none]

/-- The pattern matches only at a `#`. -/
theorem firstMatch_pattern_cons (keyword : Text) {c : Char} (other : c ≠ '#') (rest : Text) :
    firstMatch (pattern keyword) (c :: rest) = none := by
  apply firstMatch_literal_of_apart
  rintro ⟨back, same⟩
  exact other (List.cons.inj same).1.symm

theorem firstMatch_pattern_nil (keyword : Text) : firstMatch (pattern keyword) [] = none := by
  apply firstMatch_literal_of_apart
  rintro ⟨back, same⟩
  nomatch same

/-- The match at a `#`. -/
theorem capture_pattern_iff {directive : Directive} {rest : Text} {tokens : List Text} :
    (firstMatch (pattern directive.keyword) ('#' :: rest)).map capturedTokens = some tokens ↔
      ∃ captured, Opens directive.keyword rest captured ∧
        tokens = tokensBy isDelimiter (captured.takeWhile inRules) := by
  -- the first repetition takes all the spaces, as no keyword starts with one
  have apart (a : Char) (back : Text) (space : isSpace a = true) :
      firstMatch (.literal directive.keyword :: .one isSpace :: rulesItems) (a :: back) = none := by
    obtain ⟨letters, keyword⟩ := keyword_cons directive
    apply firstMatch_literal_of_apart
    rintro ⟨later, same⟩
    rw [keyword, List.cons_append] at same
    rw [← (List.cons.inj same).1] at space
    exact absurd space (by decide)
  have hash : firstMatch (pattern directive.keyword) ('#' :: rest) =
      (firstMatch (.literal directive.keyword :: .one isSpace :: rulesItems)
        (rest.dropWhile isSpace)).map fun pieces => ['#'] :: rest.takeWhile isSpace :: pieces := by
    have first : firstMatch (pattern directive.keyword) (['#'] ++ rest) =
        (firstMatch (.star isSpace :: .literal directive.keyword :: .one isSpace :: rulesItems)
          rest).map (['#'] :: ·) :=
      firstMatch_literal ['#'] rest
    rw [firstMatch_star apart, Option.map_map] at first
    exact first
  constructor
  · intro found
    rw [hash, Option.map_map] at found
    by_cases isPrefix : directive.keyword <+: rest.dropWhile isSpace
    · obtain ⟨afterKw, split⟩ := isPrefix
      rw [← split, firstMatch_literal, Option.map_map] at found
      match afterKw with
      | [] => simp [firstMatch_one_of_stops stops_nil] at found
      | a :: captured =>
          by_cases space : isSpace a = true
          · have rules := capture_rulesItems captured
            rw [firstMatch_one_cons space, Option.map_map] at found
            replace rules := rules.symm.trans found
            rw [Option.ite_none_right_eq_some, Option.some.injEq] at rules
            obtain ⟨first, same⟩ := rules
            match captured with
            | [] => nomatch first
            | b :: after =>
                refine ⟨b :: after, ⟨rest.takeWhile isSpace, a, b, after, ?_, space, first, rfl, ?_⟩,
                  same.symm⟩
                · exact fun c mem => List.mem_takeWhile_imp mem
                · rw [split, List.takeWhile_append_dropWhile]
          · have outside : Stops isSpace (a :: captured) :=
              stops_cons.mpr (Bool.not_eq_true _ ▸ space)
            rw [firstMatch_one_of_stops outside] at found
            nomatch found
    · rw [firstMatch_literal_of_apart isPrefix] at found
      nomatch found
  · rintro ⟨captured, ⟨spaces, a, b, after, inSpaces, space, inside, rfl, rfl⟩, rfl⟩
    have stops := stops_keyword (p := isSpace) (by decide) directive (a :: b :: after)
    rw [hash, dropWhile_append_of_stops inSpaces stops, takeWhile_eq inSpaces stops,
      firstMatch_literal, firstMatch_one_cons space]
    have rules := capture_rulesItems (b :: after)
    rw [List.head?_cons, Option.any_some, if_pos inside] at rules
    rw [← rules, Option.map_map, Option.map_map, Option.map_map]
    rfl

/-! ## Where both agree -/

/-- The characters that the scanner and the pattern treat alike: those of the capture,
the spaces among them being blanks. -/
def Plain (c : Char) : Prop :=
  inRules c = true ∧ (isSpace c = true → isBlank c = true)

theorem isSpace_of_isBlank {c : Char} (blank : isBlank c = true) : isSpace c = true := by
  simp only [isBlank, Bool.or_eq_true, decide_eq_true_eq] at blank
  rcases blank with rfl | rfl <;> decide

theorem plain_of_isSeparator {c : Char} (separator : isSeparator c = true) : Plain c := by
  simp only [isSeparator, Bool.or_eq_true, decide_eq_true_eq] at separator
  rcases separator with (rfl | rfl) | rfl
  · exact ⟨by decide, fun _ => by decide⟩
  · exact ⟨by decide, fun _ => by decide⟩
  · exact ⟨by decide, fun space => absurd space (by decide)⟩

theorem plain_of_not_isDelimiter {c : Char} (inside : inRules c = true)
    (kept : isDelimiter c = false) : Plain c := by
  refine ⟨inside, fun space => ?_⟩
  rw [isDelimiter_of_isSpace space] at kept
  nomatch kept

/-- Both split plain text at the same characters. -/
theorem Plain.isDelimiter_eq {c : Char} (plain : Plain c) : isDelimiter c = isSeparator c := by
  by_cases space : isSpace c = true
  · have blank := plain.2 space
    rw [isDelimiter_of_isSpace space, isSeparator]
    simp only [isBlank] at blank
    rw [blank, Bool.true_or]
  · have blank : isBlank c = false :=
      Bool.eq_false_iff.mpr fun blank => space (isSpace_of_isBlank blank)
    rw [isDelimiter, Bool.eq_false_iff.mpr space, isSeparator]
    simp only [isBlank] at blank
    rw [blank, Bool.or_false, Bool.false_or]

/-- Either the first `#` carries the directive, with something after the blank behind
the keyword and nothing but plain characters to the end of the comment, or it carries no
directive and the pattern matches behind no `#`. -/
def Agrees (keyword text : Text) : Prop :=
  (∃ after, Scanned keyword text after ∧ after ≠ [] ∧ ∀ c ∈ after, Plain c) ∨
    (∀ after, ¬Scanned keyword text after) ∧
      ∀ before rest captured, text = before ++ '#' :: rest → ¬Opens keyword rest captured

/-- What the pattern finds it finds behind some `#`. -/
theorem exists_of_referenceTokens {directive : Directive} {text : Text} {tokens : List Text}
    (found : referenceTokens directive text = some tokens) :
    ∃ before rest captured, text = before ++ '#' :: rest ∧ Opens directive.keyword rest captured ∧
      tokens = tokensBy isDelimiter (captured.takeWhile inRules) := by
  rw [referenceTokens, Option.map_eq_some_iff] at found
  obtain ⟨pieces, searched, rfl⟩ := found
  obtain ⟨before, after, rfl, here⟩ := exists_of_search searched
  match after with
  | [] =>
      rw [firstMatch_pattern_nil] at here
      nomatch here
  | c :: rest =>
      by_cases hash : c = '#'
      · subst hash
        obtain ⟨captured, opens, tokens⟩ :=
          capture_pattern_iff.mp (congrArg (Option.map capturedTokens) here)
        exact ⟨before, rest, captured, rfl, opens, tokens⟩
      · rw [firstMatch_pattern_cons _ hash] at here
        nomatch here

theorem referenceTokens_eq_none_iff {directive : Directive} {text : Text} :
    referenceTokens directive text = none ↔
      ∀ before rest captured, text = before ++ '#' :: rest →
        ¬Opens directive.keyword rest captured := by
  constructor
  · intro none before rest captured split opens
    rw [referenceTokens, Option.map_eq_none_iff, search_eq_none_iff] at none
    have here := capture_pattern_iff.mpr ⟨captured, opens, rfl⟩
    rw [none before ('#' :: rest) split] at here
    nomatch here
  · intro closed
    cases found : referenceTokens directive text with
    | none => rfl
    | some tokens =>
        obtain ⟨before, rest, captured, split, opens, -⟩ := exists_of_referenceTokens found
        exact absurd opens (closed before rest captured split)

/-- A match at the first `#` decides. -/
theorem referenceTokens_append {directive : Directive} {before rest captured : Text}
    (first : '#' ∉ before) (opens : Opens directive.keyword rest captured) :
    referenceTokens directive (before ++ '#' :: rest) =
      some (tokensBy isDelimiter (captured.takeWhile inRules)) := by
  have here := capture_pattern_iff.mpr ⟨captured, opens, rfl⟩
  rw [Option.map_eq_some_iff] at here
  obtain ⟨pieces, found, captures⟩ := here
  rw [referenceTokens, search_append, search_of_firstMatch found, Option.map_some, captures]
  intro c back mem
  apply firstMatch_pattern_cons
  rintro rfl
  exact first mem

theorem hash_notMem_keyword (directive : Directive) : '#' ∉ directive.keyword := by
  cases directive <;> decide

/-- Behind a directive that ends with its blank no `#` carries a match. -/
theorem not_opens_of_scanned_nil {directive : Directive} {text : Text}
    (scanned : Scanned directive.keyword text []) (before rest captured : Text)
    (split : text = before ++ '#' :: rest) : ¬Opens directive.keyword rest captured := by
  obtain ⟨front, blanks, a, first, blank, isBlank_a, rfl⟩ := scanned
  rintro ⟨spaces, a', b, after, inSpaces, space, -, rfl, rfl⟩
  have frontSplit := Text.splitOnce_append first (blanks ++ (directive.keyword ++ [a]))
  by_cases mem : '#' ∈ before
  · obtain ⟨front', back, rfl, first'⟩ := List.eq_append_cons_of_mem mem
    rw [List.append_assoc, List.cons_append] at split
    rw [split, Text.splitOnce_append first', Option.some.injEq, Prod.mk.injEq] at frontSplit
    have hash : '#' ∈ blanks ++ (directive.keyword ++ [a]) := by
      rw [← frontSplit.2]
      exact List.mem_append_right _ List.mem_cons_self
    rw [List.mem_append, List.mem_append, List.mem_singleton] at hash
    rcases hash with inBlanks | inKeyword | rfl
    · exact absurd (blank '#' inBlanks) (by decide)
    · exact hash_notMem_keyword directive inKeyword
    · exact absurd isBlank_a (by decide)
  · rw [split, Text.splitOnce_append mem, Option.some.injEq, Prod.mk.injEq] at frontSplit
    have stops (back : Text) := stops_keyword (p := isSpace) (by decide) directive back
    have dropped := congrArg (List.dropWhile isSpace) frontSplit.2
    rw [dropWhile_append_of_stops inSpaces (stops _),
      dropWhile_append_of_stops (fun c mem => isSpace_of_isBlank (blank c mem)) (stops _)] at dropped
    nomatch List.append_cancel_left dropped

/-- The scanner finds what the pattern finds exactly where both agree. -/
theorem directiveTokens_eq_iff (directive : Directive) (text : Text) :
    directiveTokens directive text = referenceTokens directive text ↔
      Agrees directive.keyword text := by
  by_cases isScanned : ∃ after, Scanned directive.keyword text after
  · obtain ⟨after, scanned⟩ := isScanned
    have found := directiveTokens_eq_some_iff.mpr ⟨after, scanned, rfl⟩
    rw [found]
    constructor
    · intro same
      refine Or.inl ⟨after, scanned, ?_, ?_⟩
      · rintro rfl
        rw [referenceTokens_eq_none_iff.mpr (not_opens_of_scanned_nil scanned)] at same
        nomatch same
      · intro c mem
        by_cases separator : isSeparator c = true
        · exact plain_of_isSeparator separator
        · obtain ⟨before, rest, captured, -, -, tokens⟩ := exists_of_referenceTokens same.symm
          have kept := exists_mem_tokensBy_iff.mpr ⟨mem, Bool.eq_false_iff.mpr separator⟩
          rw [tokens] at kept
          obtain ⟨inCapture, notDelimiter⟩ := exists_mem_tokensBy_iff.mp kept
          exact plain_of_not_isDelimiter (List.mem_takeWhile_imp inCapture) notDelimiter
    · rintro (⟨after', scanned', notEmpty, plain⟩ | ⟨never, -⟩)
      · have found' := directiveTokens_eq_some_iff.mpr ⟨after', scanned', rfl⟩
        rw [← found, found']
        obtain ⟨before, blanks, a, first, blank, isBlank_a, rfl⟩ := scanned'
        match after' with
        | [] => exact absurd rfl notEmpty
        | b :: tail =>
            have opens : Opens directive.keyword
                (blanks ++ (directive.keyword ++ a :: b :: tail)) (b :: tail) :=
              ⟨blanks, a, b, tail, fun c mem => isSpace_of_isBlank (blank c mem),
                isSpace_of_isBlank isBlank_a, (plain b List.mem_cons_self).1, rfl, rfl⟩
            have whole : (b :: tail).takeWhile inRules = b :: tail :=
              List.takeWhile_eq_self_iff.mpr fun c mem => (plain c mem).1
            rw [referenceTokens_append first opens, whole]
            exact congrArg some (tokensBy_congr fun c mem => (plain c mem).isDelimiter_eq.symm)
      · exact absurd scanned (never after)
  · have never : ∀ after, ¬Scanned directive.keyword text after := fun after scanned =>
      isScanned ⟨after, scanned⟩
    have none : directiveTokens directive text = none := by
      cases found : directiveTokens directive text with
      | none => rfl
      | some tokens =>
          obtain ⟨after, scanned, -⟩ := directiveTokens_eq_some_iff.mp found
          exact absurd scanned (never after)
    rw [none, eq_comm, referenceTokens_eq_none_iff]
    constructor
    · intro closed
      exact Or.inr ⟨never, closed⟩
    · rintro (⟨after, scanned, -⟩ | ⟨-, closed⟩)
      · exact absurd scanned (never after)
      · exact closed

/-- A second `#` hides the directive from the scanner, and words of the prose behind a
colon become tokens. -/
theorem not_directiveTokens_eq :
    directiveTokens .disable "## rigor:disable all".toList ≠
        referenceTokens .disable "## rigor:disable all".toList ∧
      directiveTokens .disable "# rigor:disable flow: call sites".toList ≠
        referenceTokens .disable "# rigor:disable flow: call sites".toList := by
  decide

example : directiveTokens .disable "# rigor:disable flow: call sites".toList =
    some ["flow:".toList, "call".toList, "sites".toList] := by
  decide

example : referenceTokens .disable "# rigor:disable flow: call sites".toList =
    some ["flow".toList] := by
  decide

end Rigor.Rules.Suppression
