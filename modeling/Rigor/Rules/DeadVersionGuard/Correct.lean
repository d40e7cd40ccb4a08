import Rigor.Library.Languages
import Rigor.Library.Trimming
import Rigor.Rules.DeadVersionGuard.GemVersion
import Rigor.Rules.Suppression

/-!
# The pattern of a version

`correct` stands for `ANCHORED_VERSION_PATTERN` of RubyGems, whose white space is ASCII.
-/

namespace Rigor.Rules.DeadVersionGuard

open Computability Rigor.Library.Languages Rigor.Library.MaximalMunch Rigor.Library.Separated
  Rigor.Library.Trimming Rigor.Rules.Suppression Rigor.Rust

/-! ## The pattern -/

/-- `[0-9]+(\.[0-9a-zA-Z]+)*` -/
def release : Language Char :=
  plus (ofClass Char.isDigit) * ({['.']} * plus (ofClass Char.isAlphanum))∗

/-- `[0-9A-Za-z-]+(\.[0-9A-Za-z-]+)*` -/
def prerelease : Language Char :=
  plus (ofClass isTailChar) * ({['.']} * plus (ofClass isTailChar))∗

/-- The version between the white space: the release, and a prerelease behind a dash. -/
def version : Language Char :=
  release * (1 + {['-']} * prerelease)

/-- `\A\s*(version)?\s*\z` -/
def versionPattern : Language Char :=
  (ofClass isSpace)∗ * (1 + version) * (ofClass isSpace)∗

/-! ## Pieces -/

theorem mem_release_iff {text : Text} : text ∈ release ↔ ∃ first parts,
    text.splitOn '.' = first :: parts ∧ (first ≠ [] ∧ first.all Char.isDigit) ∧
      ∀ part ∈ parts, part ≠ [] ∧ part.all Char.isAlphanum := by
  have free : ∀ {p : Char → Bool}, p '.' = false → ∀ piece ∈ plus (ofClass p), '.' ∉ piece := by
    intro p outside piece mem inPiece
    rw [(mem_plus_ofClass.mp mem).2 _ inPiece] at outside
    nomatch outside
  rw [release, mem_separated_iff (free (by decide)) (free (by decide))]
  simp only [mem_plus_ofClass, List.all_eq_true]

theorem mem_prerelease_iff {text : Text} : text ∈ prerelease ↔
    ∀ part ∈ text.splitOn '.', part ≠ [] ∧ part.all isTailChar := by
  have free : ∀ piece ∈ plus (ofClass isTailChar), '.' ∉ piece := by
    intro piece mem inPiece
    exact absurd ((mem_plus_ofClass.mp mem).2 _ inPiece) (by decide)
  rw [prerelease, mem_separated_iff free free]
  rcases List.exists_cons_of_ne_nil (List.splitOn_ne_nil '.' text) with ⟨head, tail, pieces⟩
  simp only [mem_plus_ofClass, List.all_eq_true, pieces, List.cons.injEq, List.forall_mem_cons]
  constructor
  · rintro ⟨_, _, ⟨rfl, rfl⟩, first, rest⟩
    exact ⟨first, rest⟩
  · rintro ⟨first, rest⟩
    exact ⟨_, _, ⟨rfl, rfl⟩, first, rest⟩

theorem isAlphanum_of_isDigit {c : Char} (digit : c.isDigit = true) : c.isAlphanum = true := by
  simp [Char.isAlphanum, digit]

/-- The characters of a release. -/
theorem mem_of_release {text : Text} (inRelease : text ∈ release) :
    ∀ c ∈ text, c.isAlphanum = true ∨ c = '.' := by
  rcases mem_release_iff.mp inRelease with ⟨first, parts, pieces, ⟨-, digits⟩, rest⟩
  intro c mem
  by_cases dot : c = '.'
  · exact .inr dot
  · rcases exists_mem_splitOn mem dot with ⟨piece, inPieces, inPiece⟩
    rw [pieces] at inPieces
    rcases List.mem_cons.mp inPieces with rfl | later
    · exact .inl (isAlphanum_of_isDigit (List.all_eq_true.mp digits c inPiece))
    · exact .inl (List.all_eq_true.mp (rest piece later).2 c inPiece)

theorem mem_of_prerelease {text : Text} (inPrerelease : text ∈ prerelease) :
    ∀ c ∈ text, isTailChar c = true ∨ c = '.' := by
  intro c mem
  by_cases dot : c = '.'
  · exact .inr dot
  · rcases exists_mem_splitOn mem dot with ⟨piece, inPieces, inPiece⟩
    exact .inl (List.all_eq_true.mp (mem_prerelease_iff.mp inPrerelease piece inPieces).2 c inPiece)

theorem dash_free {text : Text} (inRelease : text ∈ release) : '-' ∉ text := by
  intro mem
  rcases mem_of_release inRelease '-' mem with alphanum | dot
  · nomatch alphanum
  · nomatch dot

theorem mem_version_iff {body : Text} : body ∈ version ↔ body ∈ release ∨
    ∃ head tail, body = head ++ '-' :: tail ∧ head ∈ release ∧ tail ∈ prerelease := by
  rw [version, Language.mem_mul]
  constructor
  · rintro ⟨head, inRelease, _, rfl | ⟨_, rfl, tail, inPrerelease, rfl⟩, rfl⟩
    · rw [List.append_nil]
      exact .inl inRelease
    · exact .inr ⟨head, tail, rfl, inRelease, inPrerelease⟩
  · rintro (inRelease | ⟨head, tail, rfl, inRelease, inPrerelease⟩)
    · exact ⟨body, inRelease, [], .inl Language.nil_mem_one, List.append_nil _⟩
    · exact ⟨head, inRelease, '-' :: tail,
        .inr (Language.append_mem_mul (Set.mem_singleton ['-']) inPrerelease), rfl⟩

/-- The characters of a version. -/
theorem mem_of_version {body : Text} (inVersion : body ∈ version) :
    ∀ c ∈ body, c.isAlphanum = true ∨ c = '.' ∨ c = '-' := by
  intro c mem
  rcases mem_version_iff.mp inVersion with inRelease | ⟨head, tail, rfl, inRelease, inPrerelease⟩
  · exact (mem_of_release inRelease c mem).imp_right .inl
  · rcases List.mem_append.mp mem with front | back
    · exact (mem_of_release inRelease c front).imp_right .inl
    · rcases List.mem_cons.mp back with dash | later
      · exact .inr (.inr dash)
      · rcases mem_of_prerelease inPrerelease c later with tailChar | dot
        · rw [isTailChar, Bool.or_eq_true, decide_eq_true_eq] at tailChar
          exact tailChar.imp_right .inr
        · exact .inr (.inl dot)

/-! ## The recogniser -/

theorem piece_checks {p : Char → Bool} {piece : Text} :
    (piece = [] || !piece.all p) = false ↔ piece ≠ [] ∧ piece.all p = true := by
  rw [Bool.or_eq_false_iff, decide_eq_false_iff_not, Bool.not_eq_false']

theorem pieces_checks {p : Char → Bool} {pieces : List Text} :
    (pieces.any fun piece => piece = [] || !piece.all p) = false ↔
      ∀ piece ∈ pieces, piece ≠ [] ∧ piece.all p = true := by
  rw [List.any_eq_false]
  simp only [Bool.not_eq_true, piece_checks]

/-- The checks of the head. -/
theorem head_checks {head : Text} {tail : Bool} :
    (match head.splitOn '.' with
    | [] => false
    | first :: parts =>
        if first = [] || !first.all Char.isDigit then false
        else if parts.any fun part => part = [] || !part.all Char.isAlphanum then false
        else tail) = true ↔ head ∈ release ∧ tail = true := by
  rcases List.exists_cons_of_ne_nil (List.splitOn_ne_nil '.' head) with ⟨first, parts, pieces⟩
  have inRelease : head ∈ release ↔
      (first = [] || !first.all Char.isDigit) = false ∧
        (parts.any fun part => part = [] || !part.all Char.isAlphanum) = false := by
    rw [mem_release_iff, piece_checks, pieces_checks, pieces]
    constructor
    · rintro ⟨_, _, ⟨rfl, rfl⟩, checks⟩
      exact checks
    · exact fun checks => ⟨_, _, rfl, checks⟩
  simp only [inRelease, pieces]
  generalize (decide (first = []) || !first.all Char.isDigit) = firstFails
  generalize (parts.any fun part => decide (part = []) || !part.all Char.isAlphanum) = partFails
  cases firstFails
  · cases partFails
    · exact (and_iff_right ⟨rfl, rfl⟩).symm
    · exact iff_of_false nofun (fun checks => nomatch checks.1.2)
  · exact iff_of_false nofun (fun checks => nomatch checks.1.1)

theorem correct_iff (text : Text) : correct text = true ↔ Text.trim text ∈ 1 + version := by
  rw [correct, Language.mem_add, Language.mem_one]
  generalize Text.trim text = body
  by_cases empty : body = []
  · rw [if_pos empty]
    exact iff_of_true rfl (.inl empty)
  · rw [if_neg empty, or_iff_right empty, mem_version_iff]
    cases split : Text.splitOnce '-' body with
    | none =>
        have noDash : ¬∃ head tail, body = head ++ '-' :: tail ∧ head ∈ release ∧
            tail ∈ prerelease := by
          rintro ⟨head, tail, rfl, inRelease, -⟩
          rw [Text.splitOnce_append (dash_free inRelease)] at split
          nomatch split
        rw [or_iff_left noDash]
        exact head_checks.trans (and_iff_left rfl)
    | some parts =>
        rcases parts with ⟨head, tail⟩
        rcases Text.of_splitOnce split with ⟨dashFree, rfl⟩
        have notRelease : head ++ '-' :: tail ∉ release := by
          intro inRelease
          exact dash_free inRelease (List.mem_append_right _ List.mem_cons_self)
        have inTail : (!(tail.splitOn '.').any fun part => part = [] || !part.all isTailChar) = true ↔
            tail ∈ prerelease := by
          rw [Bool.not_eq_true', pieces_checks, mem_prerelease_iff]
        rw [or_iff_right notRelease]
        refine (head_checks.trans (and_congr_right fun _ => inTail)).trans ?_
        constructor
        · exact fun both => ⟨head, tail, rfl, both⟩
        · rintro ⟨head', tail', same, inRelease, inPrerelease⟩
          have again := Text.splitOnce_append (dash_free inRelease) tail'
          rw [← same, split, Option.some.injEq, Prod.mk.injEq] at again
          rcases again with ⟨rfl, rfl⟩
          exact ⟨inRelease, inPrerelease⟩

/-! ## White space -/

theorem isWhitespace_of_isSpace {c : Char} (space : isSpace c = true) : isWhitespace c = true := by
  have all : ∀ c ∈ [' ', '\t', '\n', '\r', '\x0b', '\x0c'], isWhitespace c = true := by
    simp [isWhitespace]
  exact all c (of_decide_eq_true space)

theorem not_isWhitespace_of_isAlphanum {c : Char} (alphanum : c.isAlphanum = true) :
    isWhitespace c = false := by
  rw [isAlphanum_iff, isAlpha_iff, isUpper_iff, isLower_iff, isDigit_iff] at alphanum
  simp [isWhitespace]
  omega

/-- No version contains white space. -/
theorem outside_of_version {body : Text} (accepted : body ∈ 1 + version) :
    ∀ c ∈ body, isWhitespace c = false ∧ isSpace c = false := by
  have visible : ∀ c ∈ body, isWhitespace c = false := by
    rcases accepted with rfl | inVersion
    · exact nofun
    · intro c mem
      rcases mem_of_version inVersion c mem with alphanum | rfl | rfl
      · exact not_isWhitespace_of_isAlphanum alphanum
      · decide
      · decide
  intro c mem
  have outside := visible c mem
  refine ⟨outside, Bool.eq_false_iff.mpr fun space => ?_⟩
  rw [isWhitespace_of_isSpace space] at outside
  nomatch outside

theorem mem_versionPattern_iff (text : Text) :
    text ∈ versionPattern ↔ strip isSpace text ∈ 1 + version := by
  constructor
  · intro inPattern
    rcases Language.mem_mul.mp inPattern with ⟨_, inFront, back, spacesBack, rfl⟩
    rcases Language.mem_mul.mp inFront with ⟨front, spacesFront, body, accepted, rfl⟩
    rw [strip_append_of_outside (mem_kstar_ofClass.mp spacesFront)
      (fun c mem => (outside_of_version accepted c mem).2) (mem_kstar_ofClass.mp spacesBack)]
    exact accepted
  · intro accepted
    rcases exists_strip isSpace text with ⟨front, back, whole, before, after⟩
    rw [whole]
    exact Language.append_mem_mul (Language.append_mem_mul (mem_kstar_ofClass.mpr before) accepted)
      (mem_kstar_ofClass.mpr after)

/-- Between ASCII white space stands all of a version. -/
theorem trim_of_accepted {text : Text} (accepted : strip isSpace text ∈ 1 + version) :
    Text.trim text = strip isSpace text := by
  rcases exists_strip isSpace text with ⟨front, back, whole, before, after⟩
  calc Text.trim text
      = strip isWhitespace (front ++ strip isSpace text ++ back) := by
        rw [← whole]
        rfl
    _ = strip isSpace text :=
        strip_append_of_outside (fun c mem => isWhitespace_of_isSpace (before c mem))
          (fun c mem => (outside_of_version accepted c mem).1)
          (fun c mem => isWhitespace_of_isSpace (after c mem))

/-! ## Numbers -/

/-- One more decimal digit. -/
def addDigit (value : Nat) (c : Char) : Nat :=
  10 * value + (c.toNat - '0'.toNat)

theorem le_foldl_addDigit (value : Nat) (run : Text) : value ≤ run.foldl addDigit value := by
  induction run generalizing value with
  | nil => exact Nat.le_refl _
  | cons c run ih =>
      have step : value ≤ addDigit value c := by
        rw [addDigit]
        omega
      exact Nat.le_trans step (ih _)

theorem foldDigits_of_lt {bits acc : Nat} {run : Text} (digits : ∀ c ∈ run, c.isDigit = true)
    (small : run.foldl addDigit acc < 2 ^ bits) :
    foldDigits bits 10 acc run = some (run.foldl addDigit acc) := by
  induction run generalizing acc with
  | nil => rfl
  | cons c run ih =>
      rw [List.forall_mem_cons] at digits
      have digit : toDigit 10 c = some (c.toNat - '0'.toNat) := by
        have bounds := digits.1
        simp [Char.isDigit, UInt32.le_iff_toNat_le] at bounds
        simp only [toDigit, if_pos digits.1, Option.filter_eq_some_iff, decide_eq_true_eq, true_and]
        simp
        omega
      have next : acc * 10 + (c.toNat - '0'.toNat) = addDigit acc c := by
        rw [addDigit, Nat.mul_comm]
      have within : addDigit acc c < 2 ^ bits :=
        Nat.lt_of_le_of_lt (le_foldl_addDigit _ run) small
      simp only [foldDigits, digit]
      rw [next, if_pos within]
      exact ih digits.2 small

/-- A run of digits in the text is too great for a `u128`. -/
def Overflows (text : Text) : Prop :=
  ∃ run value, run <:+: text ∧ Text.digitsValue run = some value ∧ 2 ^ 128 ≤ value

theorem Overflows.mono {part whole : Text} (inside : part <:+: whole) (overflows : Overflows part) :
    Overflows whole := by
  rcases overflows with ⟨run, value, inPart, read, great⟩
  exact ⟨run, value, inPart.trans inside, read, great⟩

theorem fromStrRadix_of_fits {c : Char} {rest : Text} (digit : c.isDigit = true)
    (fits : ¬Overflows (c :: rest)) :
    fromStrRadix 128 10 (c :: rest.takeWhile Char.isDigit) ≠ none := by
  have digits : ∀ d ∈ c :: rest.takeWhile Char.isDigit, d.isDigit = true :=
    List.forall_mem_cons.mpr ⟨digit, fun d mem => List.mem_takeWhile_imp mem⟩
  have small : (c :: rest.takeWhile Char.isDigit).foldl addDigit 0 < 2 ^ 128 := by
    by_contra great
    apply fits
    refine ⟨c :: rest.takeWhile Char.isDigit, _, ?_, ?_, Nat.not_lt.mp great⟩
    · exact (List.cons_prefix_cons.mpr ⟨rfl, List.takeWhile_prefix _⟩).isInfix
    · exact if_pos ⟨List.cons_ne_nil _ _, List.all_eq_true.mpr digits⟩
  have unsigned : fromStrRadix 128 10 (c :: rest.takeWhile Char.isDigit) =
      foldDigits 128 10 0 (c :: rest.takeWhile Char.isDigit) := by
    have notPlus : c ≠ '+' := by
      rintro rfl
      nomatch digit
    have notMinus : c ≠ '-' := by
      rintro rfl
      nomatch digit
    unfold fromStrRadix
    split <;> simp_all
  rw [unsigned, foldDigits_of_lt digits small]
  nofun

/-- Dashes and what replaces them end every run alike. -/
theorem takeWhile_flatMap_normalizeChar {p : Char → Bool} (dash : p '-' = false) (dot : p '.' = false)
    (text : Text) : (text.flatMap normalizeChar).takeWhile p = text.takeWhile p ∧
      (text.flatMap normalizeChar).dropWhile p = (text.dropWhile p).flatMap normalizeChar := by
  induction text with
  | nil => exact ⟨rfl, rfl⟩
  | cons c rest ih =>
      rw [List.flatMap_cons]
      by_cases same : c = '-'
      · have replaced : normalizeChar c = ['.', 'p', 'r', 'e', '.'] := if_pos same
        have stops : ¬p c = true := by
          rw [same, dash]
          decide
        have stopsDot : ¬p '.' = true := by
          rw [dot]
          decide
        rw [replaced, List.cons_append, List.takeWhile_cons_of_neg stopsDot,
          List.dropWhile_cons_of_neg stopsDot, List.takeWhile_cons_of_neg stops,
          List.dropWhile_cons_of_neg stops, List.flatMap_cons, replaced]
        exact ⟨rfl, rfl⟩
      · rw [normalizeChar_of_ne same, List.cons_append, List.nil_append]
        by_cases inside : p c = true
        · rw [List.takeWhile_cons_of_pos inside, List.dropWhile_cons_of_pos inside,
            List.takeWhile_cons_of_pos inside, List.dropWhile_cons_of_pos inside, ih.1, ih.2]
          exact ⟨rfl, rfl⟩
        · rw [List.takeWhile_cons_of_neg inside, List.dropWhile_cons_of_neg inside,
            List.takeWhile_cons_of_neg inside, List.dropWhile_cons_of_neg inside, List.flatMap_cons,
            normalizeChar_of_ne same]
          exact ⟨rfl, rfl⟩

/-- A dash becomes a string of its own. -/
theorem segments_dash (rest : Text) :
    segments ('.' :: 'p' :: 'r' :: 'e' :: '.' :: rest) =
      (segments rest).map (.str ['p', 'r', 'e'] :: ·) := by
  rw [segments_other (by decide) (by decide), segments_alpha (by decide)]
  have dropped : ('r' :: 'e' :: '.' :: rest).dropWhile Char.isAlpha = '.' :: rest := rfl
  have taken : ('r' :: 'e' :: '.' :: rest).takeWhile Char.isAlpha = ['r', 'e'] := rfl
  rw [dropped, taken, segments_other (by decide) (by decide)]

theorem segments_isSome {body : Text} (fits : ¬Overflows body) :
    (segments (body.flatMap normalizeChar)).isSome := by
  have smaller : ∀ {c : Char} {rest part : Text}, ¬Overflows (c :: rest) → part <:+ rest →
      ¬Overflows part := by
    intro c rest part fits back overflows
    exact fits (overflows.mono (back.trans (List.suffix_cons c rest)).isInfix)
  induction body using segments.induct with
  | case1 => simp [segments]
  | case2 c rest digit overflow => exact absurd overflow (fromStrRadix_of_fits digit fits)
  | case3 c rest digit value read ih =>
      have runs := takeWhile_flatMap_normalizeChar (p := Char.isDigit) (by decide) (by decide) rest
      have plain : c ≠ '-' := by
        rintro rfl
        cases digit
      rw [List.flatMap_cons, normalizeChar_of_ne plain, List.cons_append, List.nil_append,
        segments_digit digit, runs.1, runs.2, read, Option.bind_some, Option.isSome_map]
      exact ih (smaller fits (List.dropWhile_suffix _))
  | case4 c rest notDigit alpha ih =>
      have runs := takeWhile_flatMap_normalizeChar (p := Char.isAlpha) (by decide) (by decide) rest
      have plain : c ≠ '-' := by
        rintro rfl
        cases alpha
      rw [List.flatMap_cons, normalizeChar_of_ne plain, List.cons_append, List.nil_append,
        segments_alpha alpha, runs.2, Option.isSome_map]
      exact ih (smaller fits (List.dropWhile_suffix _))
  | case5 c rest notDigit notAlpha ih =>
      have later := ih (smaller fits List.suffix_rfl)
      by_cases dash : c = '-'
      · have replaced : normalizeChar c = ['.', 'p', 'r', 'e', '.'] := if_pos dash
        rw [List.flatMap_cons, replaced]
        simp only [List.cons_append, List.nil_append]
        rw [segments_dash, Option.isSome_map]
        exact later
      · rw [List.flatMap_cons, normalizeChar_of_ne dash, List.cons_append, List.nil_append,
          segments_other notDigit notAlpha]
        exact later

/-- A version is read unless a number in it is too great. -/
theorem parse_isSome {text : Text} (accepted : correct text = true) (fits : ¬Overflows text) :
    (GemVersion.parse text).isSome := by
  rcases exists_strip isWhitespace text with ⟨front, back, whole, -⟩
  have inside : Text.trim text <:+: text := ⟨front, back, whole.symm⟩
  rw [GemVersion.parse, if_neg (not_not.mpr accepted), Option.isSome_map]
  exact segments_isSome fun overflows => fits (overflows.mono inside)

/--
`correct` is the pattern of RubyGems unless white space beyond ASCII stands around a version, and then
the text is accepted all the same.
-/
theorem correct_iff_pattern (text : Text) :
    ((correct text = true ↔ text ∈ versionPattern) ∧
      (correct text = true → ¬Overflows text → (GemVersion.parse text).isSome)) ↔
        Text.trim text = strip isSpace text ∨ Text.trim text ∉ 1 + version := by
  rw [and_iff_left parse_isSome, correct_iff, mem_versionPattern_iff]
  constructor
  · intro agree
    by_cases accepted : Text.trim text ∈ 1 + version
    · exact .inl (trim_of_accepted (agree.mp accepted))
    · exact .inr accepted
  · rintro (same | rejected)
    · rw [same]
    · refine iff_of_false rejected ?_
      intro accepted
      rw [trim_of_accepted accepted] at rejected
      exact rejected accepted

/-- A no-break space is no white space to Ruby. -/
theorem not_correct_iff_pattern : ¬∀ text, correct text = true ↔ text ∈ versionPattern := by
  intro agree
  have matched := (agree ['\u00a0', '1']).mp (by decide)
  rcases (mem_versionPattern_iff _).mp matched with empty | inVersion
  · nomatch empty
  · rcases mem_of_version inVersion '\u00a0' List.mem_cons_self with alphanum | dot | dash
    · nomatch alphanum
    · nomatch dot
    · nomatch dash

end Rigor.Rules.DeadVersionGuard
