import Rigor.Library.MaximalMunch
import Rigor.Library.Padded
import Rigor.Rust.Digits
import Rigor.Rust.Lines

/-!
# Versions of gems

`GemVersion` of `dead_version_guard.rs`: which texts are versions, their segments, and how two of
them compare.
-/

namespace Rigor.Rules.DeadVersionGuard

open Rigor.Library.MaximalMunch Rigor.Library.Order Rigor.Library.Padded Rigor.Rust

/-- A run of digits, as a `u128`, or one of letters. -/
inductive Seg where
  | num (value : Nat)
  | str (run : Text)
  deriving DecidableEq, Repr

structure GemVersion where
  normalized : Text
  canonical : List Seg
  deriving DecidableEq, Repr

/-- A character of the part behind the first dash. -/
def isTailChar (c : Char) : Bool :=
  c.isAlphanum || c = '-'

def correct (text : Text) : Bool :=
  let body := Text.trim text
  if body = [] then true
  else
    let (head, tail) : Text × Option Text :=
      match Text.splitOnce '-' body with
      | some (head, tail) => (head, some tail)
      | none => (body, none)
    match head.splitOn '.' with
    | [] => false
    | first :: parts =>
        if first = [] || !first.all Char.isDigit then false
        else if parts.any fun part => part = [] || !part.all Char.isAlphanum then false
        else
          match tail with
          | none => true
          | some tail => !(tail.splitOn '.').any fun part => part = [] || !part.all isTailChar

/-- `scan(/[0-9]+|[a-z]+/i)`; no segments if a number is too great. -/
def segments : Text → Option (List Seg)
  | [] => some []
  | c :: rest =>
      if c.isDigit then
        match fromStrRadix 128 10 (c :: rest.takeWhile Char.isDigit) with
        | none => none
        | some value => (segments (rest.dropWhile Char.isDigit)).map (.num value :: ·)
      else if c.isAlpha then
        (segments (rest.dropWhile Char.isAlpha)).map (.str (c :: rest.takeWhile Char.isAlpha) :: ·)
      else segments rest
termination_by text => text.length
decreasing_by
  all_goals
    have shorter := (List.dropWhile_suffix Char.isDigit (l := rest)).length_le
    have shorter' := (List.dropWhile_suffix Char.isAlpha (l := rest)).length_le
    simp only [List.length_cons]
    omega

def Seg.isStr : Seg → Bool
  | .str _ => true
  | .num _ => false

/-- Both halves without the zeros at their ends. -/
def canonicalSegments (segments : List Seg) : List Seg :=
  let split := segments.findIdx Seg.isStr
  let trim (part : List Seg) := part.rdropWhile (· = .num 0)
  trim (segments.take split) ++ trim (segments.drop split)

/-- `replace('-', ".pre.")` of a character. -/
def normalizeChar (c : Char) : Text :=
  if c = '-' then ['.', 'p', 'r', 'e', '.'] else [c]

namespace GemVersion

def parse (text : Text) : Option GemVersion :=
  if ¬correct text then none
  else
    let normalized := (Text.trim text).flatMap normalizeChar
    (segments normalized).map fun segments => ⟨normalized, canonicalSegments segments⟩

end GemVersion

/-- Strings sort below numbers. -/
def Seg.cmp : Seg → Seg → Ordering
  | .str _, .num _ => .lt
  | .num _, .str _ => .gt
  | .num a, .num b => compare a b
  | .str a, .str b => Text.cmp a b

/-- Equal fast paths, then the loop over both lists, which are padded with zeros. -/
def GemVersion.cmpRubygems (self other : GemVersion) : Ordering :=
  if self.normalized = other.normalized ∨ self.canonical = other.canonical then .eq
  else comparePadded (.num 0) Seg.cmp self.canonical other.canonical

/-! ## Segments -/

theorem not_isAlpha_of_isDigit {c : Char} (digit : c.isDigit = true) : ¬c.isAlpha = true := by
  intro alpha
  rw [isDigit_iff] at digit
  rw [isAlpha_iff, isUpper_iff, isLower_iff] at alpha
  omega

theorem segments_digit {c : Char} (digit : c.isDigit = true) (rest : Text) :
    segments (c :: rest) = (fromStrRadix 128 10 (c :: rest.takeWhile Char.isDigit)).bind fun value =>
      (segments (rest.dropWhile Char.isDigit)).map (.num value :: ·) := by
  rw [segments, if_pos digit]
  cases fromStrRadix 128 10 (c :: rest.takeWhile Char.isDigit) <;> rfl

theorem segments_alpha {c : Char} (alpha : c.isAlpha = true) (rest : Text) :
    segments (c :: rest) =
      (segments (rest.dropWhile Char.isAlpha)).map (.str (c :: rest.takeWhile Char.isAlpha) :: ·) := by
  rw [segments, if_neg (fun digit => not_isAlpha_of_isDigit digit alpha), if_pos alpha]

theorem segments_other {c : Char} (digit : ¬c.isDigit = true) (alpha : ¬c.isAlpha = true)
    (rest : Text) : segments (c :: rest) = segments rest := by
  rw [segments, if_neg digit, if_neg alpha]

/-- Segments end in front of a text that continues none. -/
theorem segments_append {front back : Text} (digits : Stops Char.isDigit back)
    (letters : (∀ c ∈ front, ¬c.isAlpha = true) ∨ Stops Char.isAlpha back) :
    segments (front ++ back) =
      (segments front).bind fun first => (segments back).map (first ++ ·) := by
  induction front using segments.induct with
  | case1 => cases parsed : segments back <;> simp [segments, parsed]
  | case2 c rest digit overflow =>
      rw [List.cons_append, segments_digit digit, segments_digit digit,
        takeWhile_append_of_stops digits, overflow]
      rfl
  | case3 c rest digit value parsed ih =>
      have smaller : (∀ c ∈ rest.dropWhile Char.isDigit, ¬c.isAlpha = true) ∨
          Stops Char.isAlpha back := by
        refine letters.imp_left fun none c mem => none c ?_
        exact List.mem_cons_of_mem _ ((List.dropWhile_suffix _).subset mem)
      rw [List.cons_append, segments_digit digit, segments_digit digit,
        takeWhile_append_of_stops digits, dropWhile_append_of_stops digits, parsed, ih smaller]
      cases segments (rest.dropWhile Char.isDigit) <;> cases segments back <;> rfl
  | case4 c rest notDigit alpha ih =>
      have stops : Stops Char.isAlpha back :=
        letters.resolve_left fun none => none c List.mem_cons_self alpha
      rw [List.cons_append, segments_alpha alpha, segments_alpha alpha,
        takeWhile_append_of_stops stops, dropWhile_append_of_stops stops, ih (.inr stops)]
      cases segments (rest.dropWhile Char.isAlpha) <;> cases segments back <;> rfl
  | case5 c rest notDigit notAlpha ih =>
      have smaller : (∀ c ∈ rest, ¬c.isAlpha = true) ∨ Stops Char.isAlpha back :=
        letters.imp_left fun none c mem => none c (List.mem_cons_of_mem _ mem)
      rw [List.cons_append, segments_other notDigit notAlpha, segments_other notDigit notAlpha,
        ih smaller]

theorem normalizeChar_of_ne {c : Char} (other : c ≠ '-') : normalizeChar c = [c] :=
  if_neg other

/-- Without a dash nothing is replaced. -/
theorem flatMap_normalizeChar {text : Text} (dashFree : '-' ∉ text) :
    text.flatMap normalizeChar = text := by
  induction text with
  | nil => rfl
  | cons c rest ih =>
      rw [List.mem_cons, not_or] at dashFree
      rw [List.flatMap_cons, normalizeChar_of_ne (Ne.symm dashFree.1), ih dashFree.2]
      rfl

/-! ## Canonical segments -/

theorem canonicalSegments_append {numbers rest : List Seg} (plain : ∀ s ∈ numbers, s.isStr = false)
    (first : ∀ s ∈ rest.head?, s.isStr = true) : canonicalSegments (numbers ++ rest) =
      numbers.rdropWhile (· = .num 0) ++ rest.rdropWhile (· = .num 0) := by
  have split : (numbers ++ rest).findIdx Seg.isStr = numbers.length := by
    have atStart : rest.findIdx Seg.isStr = 0 := by
      cases rest with
      | nil => rfl
      | cons s rest => rw [List.findIdx_cons, first s rfl, cond_true]
    rw [List.findIdx_append, List.findIdx_eq_length.mpr plain, if_neg (Nat.lt_irrefl _), atStart,
      Nat.zero_add]
  simp only [canonicalSegments, split, List.take_left, List.drop_left]

/-- The cut in front of the first string. -/
theorem exists_canonical_cut (segments : List Seg) : ∃ numbers rest, segments = numbers ++ rest ∧
    (∀ s ∈ numbers, s.isStr = false) ∧ ∀ s ∈ rest.head?, s.isStr = true := by
  refine ⟨segments.takeWhile (!Seg.isStr ·), segments.dropWhile (!Seg.isStr ·), ?_, ?_, ?_⟩
  · exact List.takeWhile_append_dropWhile.symm
  · intro s mem
    have holds := List.mem_takeWhile_imp mem
    rwa [Bool.not_eq_true'] at holds
  · intro s mem
    have outside := List.head?_dropWhile_not (!Seg.isStr ·) segments
    rw [mem] at outside
    simpa using outside

theorem trimmed_canonicalSegments (segments : List Seg) :
    Trimmed (.num 0) (canonicalSegments segments) := by
  rcases exists_canonical_cut segments with ⟨numbers, rest, rfl, plain, first⟩
  rw [canonicalSegments_append plain first]
  exact (trimmed_rdropWhile numbers).append (trimmed_rdropWhile rest)

/-- A zero at the end makes no difference. -/
theorem canonicalSegments_zero (segments : List Seg) :
    canonicalSegments (segments ++ [.num 0]) = canonicalSegments segments := by
  have dropped : ∀ part : List Seg, (part ++ [Seg.num 0]).rdropWhile (· = Seg.num 0) =
      part.rdropWhile (· = Seg.num 0) :=
    fun _ => List.rdropWhile_concat_pos _ _ _ (decide_eq_true rfl)
  rcases exists_canonical_cut segments with ⟨numbers, rest, rfl, plain, first⟩
  rw [canonicalSegments_append plain first]
  cases rest with
  | nil =>
      have plainZero : ∀ s ∈ numbers ++ [Seg.num 0], s.isStr = false := by
        intro s mem
        rcases List.mem_append.mp mem with inNumbers | last
        · exact plain s inNumbers
        · rw [List.mem_singleton.mp last]
          rfl
      have whole := canonicalSegments_append plainZero first
      rw [List.append_nil, dropped] at whole
      rw [List.append_nil, whole]
  | cons s rest =>
      have later : ∀ t ∈ (s :: rest ++ [Seg.num 0]).head?, t.isStr = true := first
      rw [List.append_assoc, canonicalSegments_append plain later, dropped]

/-! ## The order -/

theorem linearOn_cmp : LinearOn (fun _ => True) Seg.cmp where
  eq_iff := by
    have numbers : LinearOn (fun _ => True) (@compare Nat _) := .of_lawful _
    have strings := LinearOn.of_lawful Text.cmp
    intro a b _ _
    cases a with
    | num a =>
        cases b with
        | num b => rw [Seg.cmp, numbers.eq_iff trivial trivial, Seg.num.injEq]
        | str b => exact iff_of_false nofun nofun
    | str a =>
        cases b with
        | num b => exact iff_of_false nofun nofun
        | str b => rw [Seg.cmp, strings.eq_iff trivial trivial, Seg.str.injEq]
  swap := by
    have numbers : LinearOn (fun _ => True) (@compare Nat _) := .of_lawful _
    have strings := LinearOn.of_lawful Text.cmp
    intro a b _ _
    cases a with
    | num a =>
        cases b with
        | num b => exact numbers.swap trivial trivial
        | str b => rfl
    | str a =>
        cases b with
        | num b => rfl
        | str b => exact strings.swap trivial trivial
  trans := by
    have numbers : LinearOn (fun _ => True) (@compare Nat _) := .of_lawful _
    have strings := LinearOn.of_lawful Text.cmp
    intro a b c _ _ _ first second
    cases a with
    | num a =>
        cases b with
        | num b =>
            cases c with
            | num c => exact numbers.trans trivial trivial trivial first second
            | str c => nomatch second
        | str b => nomatch first
    | str a =>
        cases c with
        | num c => rfl
        | str c =>
            cases b with
            | num b => nomatch second
            | str b => exact strings.trans trivial trivial trivial first second

theorem parse_eq_some_iff {text : Text} {version : GemVersion} :
    GemVersion.parse text = some version ↔ correct text = true ∧ ∃ segs,
      segments ((Text.trim text).flatMap normalizeChar) = some segs ∧
      version = ⟨(Text.trim text).flatMap normalizeChar, canonicalSegments segs⟩ := by
  rw [GemVersion.parse]
  by_cases accepted : correct text = true
  · rw [if_neg (not_not.mpr accepted)]
    simp only [Option.map_eq_some_iff, accepted, true_and]
    exact exists_congr fun segs => and_congr_right fun _ => eq_comm
  · rw [if_pos accepted]
    exact iff_of_false nofun (fun both => accepted both.1)

/-- What `parse` makes. -/
def Parsed (version : GemVersion) : Prop :=
  ∃ text, GemVersion.parse text = some version

theorem Parsed.trimmed {version : GemVersion} (parsed : Parsed version) :
    Trimmed (.num 0) version.canonical := by
  rcases parsed with ⟨text, parsed⟩
  rcases parse_eq_some_iff.mp parsed with ⟨-, segs, -, rfl⟩
  exact trimmed_canonicalSegments segs

theorem linearOn_canonical : LinearOn (Trimmed (.num 0)) (comparePadded (.num 0) Seg.cmp) :=
  linearOn_comparePadded linearOn_cmp

/-- The fast paths are right: equal texts have equal segments. -/
theorem cmpRubygems_eq {a b : GemVersion} (aParsed : Parsed a) (bParsed : Parsed b) :
    a.cmpRubygems b = comparePadded (.num 0) Seg.cmp a.canonical b.canonical := by
  rw [GemVersion.cmpRubygems]
  by_cases fast : a.normalized = b.normalized ∨ a.canonical = b.canonical
  · have same : a.canonical = b.canonical := by
      rcases fast with texts | same
      · rcases aParsed with ⟨_, aParsed⟩
        rcases bParsed with ⟨_, bParsed⟩
        rcases parse_eq_some_iff.mp aParsed with ⟨-, aSegs, aScanned, rfl⟩
        rcases parse_eq_some_iff.mp bParsed with ⟨-, bSegs, bScanned, rfl⟩
        have equal : aSegs = bSegs := by
          simp only at texts
          rw [texts, bScanned] at aScanned
          exact (Option.some.inj aScanned).symm
        rw [equal]
      · exact same
    rw [if_pos fast, same, linearOn_canonical.self bParsed.trimmed]
  · rw [if_neg fast]

end Rigor.Rules.DeadVersionGuard
