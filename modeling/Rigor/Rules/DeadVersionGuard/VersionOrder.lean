import Rigor.Rules.DeadVersionGuard.Correct

/-!
# The order of versions

`cmp_rubygems` is a total preorder.  A zero at the end makes no difference to it, and a prerelease is
below the numbers in front of its letters.
-/

namespace Rigor.Rules.DeadVersionGuard

open Computability Rigor.Library.MaximalMunch Rigor.Library.Order Rigor.Library.Padded
  Rigor.Library.Separated Rigor.Library.Trimming Rigor.Rust

/-! ## A zero at the end -/

/-- The text does not end in white space, nor is it empty. -/
def EndsVisibly (text : Text) : Prop :=
  ∃ c, text.getLast? = some c ∧ isWhitespace c = false

theorem trim_append_zero {text : Text} (visible : EndsVisibly text) :
    Text.trim text ≠ [] ∧ Text.trim (text ++ ['.', '0']) = Text.trim text ++ ['.', '0'] := by
  rcases visible with ⟨c, last, visible⟩
  rcases exists_strip isWhitespace text with ⟨front, back, whole, before, after⟩
  have atEnd : ∀ spaces : Text, (∀ a ∈ spaces, isWhitespace a = true) → c ∉ spaces := by
    intro spaces blank mem
    rw [blank c mem] at visible
    nomatch visible
  have noBack : back = [] := by
    by_contra nonempty
    rw [whole, List.getLast?_append_of_ne_nil _ nonempty] at last
    exact atEnd back after (List.mem_of_mem_getLast? last)
  have nonblank : strip isWhitespace text ≠ [] := by
    intro blank
    rw [blank, noBack, List.append_nil, List.append_nil] at whole
    rw [whole] at last
    exact atEnd front before (List.mem_of_mem_getLast? last)
  refine ⟨nonblank, ?_⟩
  have starts : ∀ a ∈ (strip isWhitespace text ++ ['.', '0']).head?, isWhitespace a = false := by
    rw [List.head?_append_of_ne_nil _ nonblank]
    exact head?_strip isWhitespace text
  have ends : ∀ a ∈ (strip isWhitespace text ++ ['.', '0']).getLast?, isWhitespace a = false := by
    rw [List.getLast?_append_of_ne_nil _ (List.cons_ne_nil _ _)]
    rintro a ⟨⟩
    decide
  calc Text.trim (text ++ ['.', '0'])
      = strip isWhitespace (front ++ (strip isWhitespace text ++ ['.', '0']) ++ []) := by
        rw [List.append_nil, ← List.append_assoc]
        rw [noBack, List.append_nil] at whole
        rw [← whole]
        rfl
    _ = strip isWhitespace text ++ ['.', '0'] := strip_append before starts ends nofun

/-- Only a text that ends visibly makes a version with a zero behind it. -/
theorem endsVisibly_of_correct {text : Text} (accepted : correct (text ++ ['.', '0']) = true) :
    EndsVisibly text := by
  rw [correct_iff] at accepted
  rcases exists_strip isWhitespace (text ++ ['.', '0']) with ⟨front, back, whole, before, after⟩
  have noBack : back = [] := by
    by_contra nonempty
    have last := congrArg List.getLast? whole
    rw [List.getLast?_append_of_ne_nil _ (List.cons_ne_nil _ _),
      List.getLast?_append_of_ne_nil _ nonempty] at last
    exact absurd (after '0' (List.mem_of_mem_getLast? last.symm)) (by decide)
  rw [noBack, List.append_nil] at whole
  have inner : ∃ core, text = front ++ core ∧ Text.trim (text ++ ['.', '0']) = core ++ ['.', '0'] := by
    rcases List.append_eq_append_iff.mp whole with ⟨core, split, rest⟩ | ⟨core, split, rest⟩
    · cases core with
      | nil =>
          rw [List.append_nil] at split
          exact ⟨[], by rw [split, List.append_nil], rest.symm⟩
      | cons c core =>
          have blank := before c (by simp [split])
          rw [← (List.cons.inj rest).1] at blank
          exact absurd blank (by decide)
    · exact ⟨core, split, rest⟩
  rcases inner with ⟨core, rfl, trimmed⟩
  rw [trimmed] at accepted
  have nonempty : core ≠ [] := by
    rintro rfl
    have zero : correct ['.', '0'] = true := (correct_iff ['.', '0']).mpr accepted
    exact absurd zero (by decide)
  refine ⟨core.getLast nonempty, ?_, ?_⟩
  · rw [List.getLast?_append_of_ne_nil _ nonempty, List.getLast?_eq_some_getLast nonempty]
  · exact (outside_of_version accepted _ (List.mem_append_left _ (List.getLast_mem nonempty))).1

theorem mem_release_append_zero {body : Text} (inRelease : body ∈ release) :
    body ++ ['.', '0'] ∈ release := by
  rcases mem_release_iff.mp inRelease with ⟨first, parts, pieces, good, rest⟩
  refine mem_release_iff.mpr ⟨first, parts ++ [['0']], ?_, good, ?_⟩
  · rw [List.splitOn_append_cons_self, pieces]
    rfl
  · intro part mem
    rcases List.mem_append.mp mem with before | last
    · exact rest part before
    · rw [List.mem_singleton.mp last]
      decide

/-- The version with the zero has the same canonical segments. -/
theorem parse_append_zero {text : Text} {v : GemVersion} (parsed : GemVersion.parse text = some v)
    (dashFree : '-' ∉ text) (visible : EndsVisibly text) :
    ∃ w, GemVersion.parse (text ++ ['.', '0']) = some w ∧ w.canonical = v.canonical := by
  rcases parse_eq_some_iff.mp parsed with ⟨accepted, segs, scanned, rfl⟩
  rcases trim_append_zero visible with ⟨nonblank, trimmed⟩
  have inRelease : Text.trim text ∈ release := by
    rcases (correct_iff text).mp accepted with blank | inVersion
    · exact absurd blank nonblank
    · rcases mem_version_iff.mp inVersion with inRelease | ⟨head, tail, split, -⟩
      · exact inRelease
      · rcases exists_strip isWhitespace text with ⟨front, back, whole, -⟩
        apply absurd _ dashFree
        have dash : '-' ∈ strip isWhitespace text := by
          change '-' ∈ Text.trim text
          rw [split]
          exact List.mem_append_right _ List.mem_cons_self
        rw [whole]
        exact List.mem_append_left _ (List.mem_append_right _ dash)
  have acceptedZero : correct (text ++ ['.', '0']) = true := by
    rw [correct_iff, trimmed]
    exact .inr (mem_version_iff.mpr (.inl (mem_release_append_zero inRelease)))
  have zero : segments ['.', '0'] = some [.num 0] := by
    have read : fromStrRadix 128 10 ('0' :: ([] : Text).takeWhile Char.isDigit) = some 0 := by decide
    rw [segments_other (by decide) (by decide), segments_digit (by decide), read]
    simp [segments]
  have scannedZero : segments ((Text.trim (text ++ ['.', '0'])).flatMap normalizeChar) =
      some (segs ++ [.num 0]) := by
    have plain : (['.', '0'] : Text).flatMap normalizeChar = ['.', '0'] := by decide
    rw [trimmed, List.flatMap_append, plain,
      segments_append (stops_cons.mpr (by decide)) (.inr (stops_cons.mpr (by decide))), scanned, zero]
    rfl
  exact ⟨_, parse_eq_some_iff.mpr ⟨acceptedZero, _, scannedZero, rfl⟩, canonicalSegments_zero segs⟩

/-! ## The numbers in front of the letters -/

/-- A character of a number or a dot between numbers. -/
def isNumeric (c : Char) : Bool :=
  c.isDigit || c = '.'

/-- The numbers at the start of a version. -/
def numericPrefix (text : Text) : Text :=
  ((Text.trim text).takeWhile isNumeric).rdropWhile (· = '.')

/-- Numbers with dots between them. -/
structure Numbers (pieces : List Text) : Prop where
  nonempty : pieces ≠ []
  digits : ∀ piece ∈ pieces, piece ≠ [] ∧ ∀ c ∈ piece, c.isDigit = true

theorem Numbers.cons {first : Text} {pieces : List Text} (nonempty : first ≠ [])
    (digits : ∀ c ∈ first, c.isDigit = true) (numbers : Numbers pieces) : Numbers (first :: pieces) :=
  ⟨List.cons_ne_nil _ _, List.forall_mem_cons.mpr ⟨⟨nonempty, digits⟩, numbers.digits⟩⟩

theorem Numbers.singleton {first : Text} (nonempty : first ≠ [])
    (digits : ∀ c ∈ first, c.isDigit = true) : Numbers [first] :=
  ⟨List.cons_ne_nil _ _, List.forall_mem_cons.mpr ⟨⟨nonempty, digits⟩, nofun⟩⟩

theorem takeWhile_release {first : Text} {parts : List Text} (nonempty : first ≠ [])
    (digits : ∀ c ∈ first, c.isDigit = true)
    (rest : ∀ part ∈ parts, part ≠ [] ∧ part.all Char.isAlphanum) :
    ∃ pieces, Numbers pieces ∧
      ((['.'].intercalate (first :: parts)).takeWhile isNumeric = ['.'].intercalate pieces ∨
        (['.'].intercalate (first :: parts)).takeWhile isNumeric =
          ['.'].intercalate pieces ++ ['.']) := by
  have numeric : ∀ {run : Text}, (∀ c ∈ run, c.isDigit = true) → ∀ c ∈ run, isNumeric c = true := by
    intro run digits c mem
    rw [isNumeric, digits c mem]
    rfl
  induction parts generalizing first with
  | nil =>
      refine ⟨[first], .singleton nonempty digits, .inl ?_⟩
      rw [List.intercalate_singleton]
      exact List.takeWhile_eq_self_iff.mpr (numeric digits)
  | cons part parts ih =>
      rw [List.forall_mem_cons] at rest
      have spelled : (['.'].intercalate (first :: part :: parts)).takeWhile isNumeric =
          first ++ '.' :: (['.'].intercalate (part :: parts)).takeWhile isNumeric := by
        rw [intercalate_cons_of_ne_nil '.' first (List.cons_ne_nil part parts),
          List.takeWhile_append_of_pos (numeric digits), List.takeWhile_cons_of_pos (by decide)]
      by_cases whole : ∀ c ∈ part, c.isDigit = true
      · rcases ih rest.1.1 whole rest.2 with ⟨pieces, numbers, taken⟩
        refine ⟨first :: pieces, numbers.cons nonempty digits, ?_⟩
        rw [spelled, intercalate_cons_of_ne_nil '.' first numbers.nonempty]
        rcases taken with same | dotted
        · exact .inl (by rw [same])
        · exact .inr (by rw [dotted, List.append_assoc]; rfl)
      · have stops : (['.'].intercalate (part :: parts)).takeWhile isNumeric =
            part.takeWhile Char.isDigit := by
          have cut := List.takeWhile_append_dropWhile (p := Char.isDigit) (l := part)
          have nonempty : part.dropWhile Char.isDigit ≠ [] := by
            intro empty
            rw [List.dropWhile_eq_nil_iff] at empty
            exact whole empty
          have letters := stops_dropWhile (p := Char.isDigit) part
          rcases List.exists_cons_of_ne_nil nonempty with ⟨c, more, back⟩
          rw [back] at cut letters
          have alphanum := List.all_eq_true.mp rest.1.2 c (by rw [← cut]; simp)
          have outside : isNumeric c = false := by
            rw [isNumeric, stops_cons.mp letters, Bool.false_or, decide_eq_false_iff_not]
            rintro rfl
            nomatch alphanum
          have whole : ['.'].intercalate (part :: parts) =
              part.takeWhile Char.isDigit ++ c :: (more ++ parts.flatMap ('.' :: ·)) := by
            rw [intercalate_cons, ← List.cons_append, ← List.append_assoc, cut]
          rw [whole]
          exact takeWhile_eq (numeric fun c mem => List.mem_takeWhile_imp mem)
            (stops_cons.mpr outside)
        by_cases letter : part.takeWhile Char.isDigit = []
        · refine ⟨[first], .singleton nonempty digits, .inr ?_⟩
          rw [spelled, stops, letter, List.intercalate_singleton]
        · refine ⟨[first, part.takeWhile Char.isDigit],
            .cons nonempty digits (.singleton letter fun c mem => List.mem_takeWhile_imp mem), .inl ?_⟩
          rw [spelled, stops, intercalate_cons_of_ne_nil '.' first (List.cons_ne_nil _ _),
            List.intercalate_singleton]

theorem Numbers.free {pieces : List Text} (numbers : Numbers pieces) : ∀ piece ∈ pieces, '.' ∉ piece := by
  intro piece mem dot
  exact absurd ((numbers.digits piece mem).2 '.' dot) (by decide)

theorem Numbers.splitOn {pieces : List Text} (numbers : Numbers pieces) :
    (['.'].intercalate pieces).splitOn '.' = pieces :=
  List.splitOn_intercalate '.' numbers.free numbers.nonempty

theorem Numbers.isNumeric {pieces : List Text} (numbers : Numbers pieces) :
    ∀ c ∈ ['.'].intercalate pieces, isNumeric c = true := by
  intro c mem
  by_cases dot : c = '.'
  · rw [dot]
    decide
  · rcases exists_mem_splitOn mem dot with ⟨piece, inPieces, inPiece⟩
    rw [numbers.splitOn] at inPieces
    rw [DeadVersionGuard.isNumeric, (numbers.digits piece inPieces).2 c inPiece]
    rfl

/-- Numbers do not end in a dot. -/
theorem Numbers.getLast? {pieces : List Text} (numbers : Numbers pieces) :
    (['.'].intercalate pieces).getLast? ≠ some '.' := by
  rcases List.eq_nil_or_concat pieces with rfl | ⟨front, last, rfl⟩
  · exact absurd rfl numbers.nonempty
  · rw [List.concat_eq_append] at numbers ⊢
    have digits := numbers.digits last (by simp)
    have ends : ∃ start, ['.'].intercalate (front ++ [last]) = start ++ last := by
      by_cases empty : front = []
      · rw [empty]
        exact ⟨[], List.intercalate_singleton⟩
      · rw [intercalate_append empty (List.cons_ne_nil _ _), List.intercalate_singleton]
        exact ⟨_, List.append_cons _ _ _⟩
    rcases ends with ⟨start, same⟩
    intro dot
    rw [same, List.getLast?_append_of_ne_nil _ digits.1] at dot
    exact absurd (digits.2 '.' (List.mem_of_mem_getLast? dot)) (by decide)

theorem Numbers.mem_release {pieces : List Text} (numbers : Numbers pieces) :
    ['.'].intercalate pieces ∈ release := by
  rcases List.exists_cons_of_ne_nil numbers.nonempty with ⟨first, parts, rfl⟩
  have good := List.forall_mem_cons.mp numbers.digits
  refine mem_release_iff.mpr
    ⟨first, parts, numbers.splitOn, ⟨good.1.1, List.all_eq_true.mpr good.1.2⟩, ?_⟩
  intro part mem
  refine ⟨(good.2 part mem).1, List.all_eq_true.mpr fun c inPart => ?_⟩
  exact isAlphanum_of_isDigit ((good.2 part mem).2 c inPart)

/-- The numbers at the start, and the dot that may follow them. -/
theorem exists_numbers {body : Text} (inVersion : body ∈ version) : ∃ pieces, Numbers pieces ∧
    (body.takeWhile isNumeric = ['.'].intercalate pieces ∨
      body.takeWhile isNumeric = ['.'].intercalate pieces ++ ['.']) := by
  have ofRelease : ∀ {head : Text}, head ∈ release → ∃ pieces, Numbers pieces ∧
      (head.takeWhile isNumeric = ['.'].intercalate pieces ∨
        head.takeWhile isNumeric = ['.'].intercalate pieces ++ ['.']) := by
    intro head inRelease
    rcases mem_release_iff.mp inRelease with ⟨first, parts, pieces, ⟨nonempty, digits⟩, rest⟩
    have spelled : ['.'].intercalate (head.splitOn '.') = head := List.intercalate_splitOn '.'
    rw [← spelled, pieces]
    exact takeWhile_release nonempty (List.all_eq_true.mp digits) rest
  rcases mem_version_iff.mp inVersion with inRelease | ⟨head, tail, rfl, inRelease, -⟩
  · exact ofRelease inRelease
  · rw [takeWhile_append_of_stops (stops_cons.mpr (by decide))]
    exact ofRelease inRelease

theorem rdropWhile_dots {pieces : List Text} (numbers : Numbers pieces) :
    (['.'].intercalate pieces).rdropWhile (· = '.') = ['.'].intercalate pieces ∧
      (['.'].intercalate pieces ++ ['.']).rdropWhile (· = '.') = ['.'].intercalate pieces := by
  have kept : (['.'].intercalate pieces).rdropWhile (· = '.') = ['.'].intercalate pieces := by
    rw [List.rdropWhile_eq_self_iff]
    intro nonempty dot
    apply numbers.getLast?
    rw [List.getLast?_eq_some_getLast nonempty, of_decide_eq_true dot]
  exact ⟨kept, (List.rdropWhile_concat_pos (fun c => decide (c = '.')) _ '.' (by decide)).trans kept⟩

/-- Without letters there are no strings. -/
theorem isStr_of_segments {text : Text} (plain : ∀ c ∈ text, ¬c.isAlpha = true) {segs : List Seg}
    (scanned : segments text = some segs) : ∀ s ∈ segs, s.isStr = false := by
  induction text using segments.induct generalizing segs with
  | case1 =>
      simp [segments] at scanned
      rw [scanned]
      rintro _ ⟨⟩
  | case2 c rest digit overflow =>
      rw [segments_digit digit, overflow] at scanned
      cases scanned
  | case3 c rest digit value read ih =>
      rw [segments_digit digit, read, Option.bind_some, Option.map_eq_some_iff] at scanned
      rcases scanned with ⟨later, scanned, rfl⟩
      refine List.forall_mem_cons.mpr ⟨rfl, ih ?_ scanned⟩
      exact fun d mem => plain d (List.mem_cons_of_mem _ ((List.dropWhile_suffix _).subset mem))
  | case4 c rest notDigit alpha => exact absurd alpha (plain c List.mem_cons_self)
  | case5 c rest notDigit notAlpha ih =>
      rw [segments_other notDigit notAlpha] at scanned
      exact ih (fun d mem => plain d (List.mem_cons_of_mem _ mem)) scanned

/-- Behind the numbers comes a string. -/
theorem segments_behind {body : Text} (inVersion : body ∈ version) (letter : ∃ c ∈ body, c.isAlpha = true)
    {segs : List Seg}
    (scanned : segments ((body.dropWhile isNumeric).flatMap normalizeChar) = some segs) :
    ∃ run rest, segs = .str run :: rest := by
  have stops := stops_dropWhile (p := isNumeric) body
  cases behind : body.dropWhile isNumeric with
  | nil =>
      rcases letter with ⟨c, mem, alpha⟩
      have numeric := List.dropWhile_eq_nil_iff.mp behind c mem
      rw [isNumeric, Bool.or_eq_true, decide_eq_true_eq] at numeric
      rcases numeric with digit | rfl
      · exact absurd alpha (not_isAlpha_of_isDigit digit)
      · nomatch alpha
  | cons c rest =>
      rw [behind, stops_cons, isNumeric, Bool.or_eq_false_iff, decide_eq_false_iff_not] at stops
      have inBody : c ∈ body := (List.dropWhile_suffix isNumeric).subset (behind ▸ List.mem_cons_self)
      rw [behind, List.flatMap_cons] at scanned
      by_cases dash : c = '-'
      · have replaced : normalizeChar c = ['.', 'p', 'r', 'e', '.'] := if_pos dash
        rw [replaced] at scanned
        simp only [List.cons_append, List.nil_append] at scanned
        rw [segments_dash, Option.map_eq_some_iff] at scanned
        rcases scanned with ⟨later, -, rfl⟩
        exact ⟨_, _, rfl⟩
      · have alpha : c.isAlpha = true := by
          rcases mem_of_version inVersion c inBody with alphanum | dot | isDash
          · rw [Char.isAlphanum, stops.1, Bool.or_false] at alphanum
            exact alphanum
          · exact absurd dot stops.2
          · exact absurd isDash dash
        rw [normalizeChar_of_ne dash, List.cons_append, segments_alpha alpha,
          Option.map_eq_some_iff] at scanned
        rcases scanned with ⟨later, -, rfl⟩
        exact ⟨_, _, rfl⟩

theorem canonicalSegments_str {numbers rest : List Seg} {run : Text}
    (plain : ∀ s ∈ numbers, s.isStr = false) : ∃ more,
      canonicalSegments (numbers ++ .str run :: rest) = canonicalSegments numbers ++ .str run :: more := by
  have alone := @canonicalSegments_append numbers [] plain nofun
  rw [List.append_nil, List.rdropWhile_nil, List.append_nil] at alone
  have first : ∀ s ∈ (Seg.str run :: rest).head?, s.isStr = true := by
    rintro s ⟨⟩
    rfl
  have kept : (Seg.str run :: rest).rdropWhile (· = .num 0) ≠ [] := by
    intro empty
    have zero := List.rdropWhile_eq_nil_iff.mp empty (.str run) List.mem_cons_self
    nomatch of_decide_eq_true zero
  rcases List.exists_cons_of_ne_nil kept with ⟨s, more, same⟩
  have start := (List.rdropWhile_prefix (fun s => decide (s = Seg.num 0)) (Seg.str run :: rest))
  rw [same, List.cons_prefix_cons] at start
  refine ⟨more, ?_⟩
  rw [canonicalSegments_append plain first, alone, same, start.1]

/-- A release is a version, and there is nothing to trim or to replace. -/
theorem parse_of_release {text : Text} (inRelease : text ∈ release) {segs : List Seg}
    (scanned : segments text = some segs) :
    GemVersion.parse text = some ⟨text, canonicalSegments segs⟩ := by
  have inVersion : text ∈ 1 + version := .inr (mem_version_iff.mpr (.inl inRelease))
  have trimmed : Text.trim text = text := by
    have whole := @strip_append_of_outside _ isWhitespace [] text [] nofun
      (fun c mem => (outside_of_version inVersion c mem).1) nofun
    rwa [List.nil_append, List.append_nil] at whole
  have replaced : (Text.trim text).flatMap normalizeChar = text := by
    rw [trimmed, flatMap_normalizeChar (dash_free inRelease)]
  rw [parse_eq_some_iff, correct_iff, replaced, trimmed]
  exact ⟨inVersion, segs, scanned, rfl⟩

/-- The segments of a version with letters are those of its numbers, and then a string. -/
theorem segments_of_numbers {body : Text} (inVersion : body ∈ version)
    (letter : ∃ c ∈ body, c.isAlpha = true) {pieces : List Text}
    (taken : body.takeWhile isNumeric = ['.'].intercalate pieces ∨
      body.takeWhile isNumeric = ['.'].intercalate pieces ++ ['.']) {segs : List Seg}
    (scanned : segments (body.flatMap normalizeChar) = some segs) :
    ∃ nums run rest, segments (['.'].intercalate pieces) = some nums ∧
      segs = nums ++ .str run :: rest := by
  have numeric : ∀ c ∈ body.takeWhile isNumeric, c.isDigit = true ∨ c = '.' := by
    intro c mem
    have holds := List.mem_takeWhile_imp mem
    rwa [isNumeric, Bool.or_eq_true, decide_eq_true_eq] at holds
  have letterFree : ∀ c ∈ body.takeWhile isNumeric, ¬c.isAlpha = true := by
    intro c mem
    rcases numeric c mem with digit | rfl
    · exact not_isAlpha_of_isDigit digit
    · decide
  have dashFree : '-' ∉ body.takeWhile isNumeric := by
    intro mem
    rcases numeric '-' mem with digit | dot
    · nomatch digit
    · nomatch dot
  have dots : segments (body.takeWhile isNumeric) = segments (['.'].intercalate pieces) := by
    rcases taken with same | dotted
    · rw [same]
    · have dot : segments ['.'] = some [] := by
        rw [segments_other (by decide) (by decide)]
        simp [segments]
      rw [dotted, segments_append (stops_cons.mpr (by decide)) (.inr (stops_cons.mpr (by decide))), dot]
      cases segments (['.'].intercalate pieces) <;> simp
  have stops : Stops Char.isDigit ((body.dropWhile isNumeric).flatMap normalizeChar) := by
    have first := stops_dropWhile (p := isNumeric) body
    cases behind : body.dropWhile isNumeric with
    | nil => exact stops_nil
    | cons c rest =>
        rw [behind, stops_cons, isNumeric, Bool.or_eq_false_iff] at first
        rw [List.flatMap_cons, normalizeChar]
        by_cases dash : c = '-'
        · rw [if_pos dash]
          exact stops_cons.mpr (by decide)
        · rw [if_neg dash]
          exact stops_cons.mpr first.1
  rw [← List.takeWhile_append_dropWhile (p := isNumeric) (l := body), List.flatMap_append,
    flatMap_normalizeChar dashFree, segments_append stops (.inl letterFree), dots,
    Option.bind_eq_some_iff] at scanned
  rcases scanned with ⟨nums, scannedNums, joined⟩
  rcases Option.map_eq_some_iff.mp joined with ⟨later, scannedLater, rfl⟩
  rcases segments_behind inVersion letter scannedLater with ⟨run, rest, rfl⟩
  exact ⟨nums, run, rest, scannedNums, rfl⟩

/-- The numbers of a prerelease make a version, and it goes on with a string behind them. -/
theorem parse_numericPrefix {text : Text} {v : GemVersion} (parsed : GemVersion.parse text = some v)
    (letter : ∃ c ∈ text, c.isAlpha = true) : ∃ p, GemVersion.parse (numericPrefix text) = some p ∧
      ∃ run more, v.canonical = p.canonical ++ .str run :: more := by
  rcases parse_eq_some_iff.mp parsed with ⟨accepted, segs, scanned, rfl⟩
  have inBody : ∃ c ∈ Text.trim text, c.isAlpha = true := by
    rcases letter with ⟨c, mem, alpha⟩
    rcases exists_strip isWhitespace text with ⟨front, back, whole, before, after⟩
    have visible : ¬isWhitespace c = true := by
      rw [not_isWhitespace_of_isAlphanum (by simp [Char.isAlphanum, alpha])]
      decide
    rw [whole] at mem
    rcases List.mem_append.mp mem with start | last
    · rcases List.mem_append.mp start with first | inside
      · exact absurd (before c first) visible
      · exact ⟨c, inside, alpha⟩
    · exact absurd (after c last) visible
  have inVersion : Text.trim text ∈ version := by
    rcases (correct_iff text).mp accepted with blank | inVersion
    · rcases inBody with ⟨c, mem, -⟩
      rw [blank] at mem
      cases mem
    · exact inVersion
  rcases exists_numbers inVersion with ⟨pieces, numbers, taken⟩
  have atStart : numericPrefix text = ['.'].intercalate pieces := by
    rw [numericPrefix]
    rcases taken with same | dotted
    · rw [same, (rdropWhile_dots numbers).1]
    · rw [dotted, (rdropWhile_dots numbers).2]
  rcases segments_of_numbers inVersion inBody taken scanned with
    ⟨nums, run, rest, scannedNums, rfl⟩
  have plain : ∀ s ∈ nums, s.isStr = false := by
    apply isStr_of_segments _ scannedNums
    intro c mem
    have numeric := numbers.isNumeric c mem
    rw [isNumeric, Bool.or_eq_true, decide_eq_true_eq] at numeric
    rcases numeric with digit | rfl
    · exact not_isAlpha_of_isDigit digit
    · decide
  rw [atStart]
  refine ⟨_, parse_of_release numbers.mem_release scannedNums, run, ?_⟩
  exact canonicalSegments_str plain

/-! ## The order -/

end Rigor.Rules.DeadVersionGuard
