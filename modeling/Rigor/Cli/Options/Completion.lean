import Rigor.Cli.Config.RubyInteger
import Rigor.Library.Languages
import Rigor.Library.MaximalMunch

/-!
# Abbreviated names

`completion_match` of `optparse.rs` stands for the pattern that Ruby's `OptionParser` makes of an
abbreviation: every run of word characters may go on with further word characters.
-/

namespace Rigor.Cli.Options

open Computability Rigor.Cli.Config Rigor.Library.Languages Rigor.Library.MaximalMunch Rigor.Rust

/-- `is_word`, and `\w`. -/
def isWord (c : Char) : Bool :=
  c.isAlphanum || c = '_'

/-- The comparison of two characters. -/
def sameChar (icase : Bool) (a b : Char) : Bool :=
  if icase then a.toLower = b.toLower else a = b

/-- The loop of `completion_match`; `inRun` says that the last character of the key was a word character. -/
def completionLoop (icase : Bool) : Bool → Text → Text → Bool
  | _, [], _ => true
  | inRun, k :: key, cand =>
      if isWord k then
        match cand with
        | [] => false
        | c :: cand => if sameChar icase c k then completionLoop icase true key cand else false
      else
        match if inRun then cand.dropWhile isWord else cand with
        | [] => false
        | c :: cand => if sameChar icase c k then completionLoop icase false key cand else false

def completionMatch (key cand : Text) (icase : Bool) : Bool :=
  completionLoop icase false key cand

/-! ## The pattern -/

/-- The maximal runs of word characters, and the other characters one by one. -/
def segments : Text → List Text
  | [] => []
  | c :: text =>
      if isWord c then
        match segments text with
        | (d :: run) :: rest => if isWord d then (c :: d :: run) :: rest else [c] :: (d :: run) :: rest
        | rest => [c] :: rest
      else [c] :: segments text

/-- A text as it is written, up to the comparison. -/
def written (icase : Bool) (text : Text) : Language Char :=
  {w | List.Forall₂ (fun c k => sameChar icase c k = true) w text}

/-- `run\w*` for a run of word characters, and the character itself for any other. -/
def segmentRegex (icase : Bool) (segment : Text) : Language Char :=
  if segment.all isWord then written icase segment * (ofClass isWord)∗ else written icase segment

/-- The pattern of a key: `\w*` after every maximal run of word characters. -/
def completionRegex (icase : Bool) (key : Text) : Language Char :=
  ((segments key).map (segmentRegex icase)).prod

/-- The candidate has the pattern at its start. -/
def Abbreviates (icase : Bool) (key cand : Text) : Prop :=
  ∃ front back, front ∈ completionRegex icase key ∧ cand = front ++ back

/-! ## Characters -/

section Characters

variable {icase : Bool} {a b : Char}

theorem isWord_iff (c : Char) : isWord c = true ↔ (65 ≤ c.toNat ∧ c.toNat ≤ 90) ∨
    (97 ≤ c.toNat ∧ c.toNat ≤ 122) ∨ (48 ≤ c.toNat ∧ c.toNat ≤ 57) ∨ c.toNat = 95 := by
  have underscore : c = '_' ↔ c.toNat = 95 := by
    rw [← Char.toNat_inj]
    rfl
  change (c.isAlpha || c.isDigit || decide (c = '_')) = true ↔ _
  rw [Bool.or_eq_true, Bool.or_eq_true, decide_eq_true_iff, isAlpha_iff, isUpper_iff, isLower_iff, isDigit_iff,
    underscore, or_assoc, or_assoc]

theorem isWord_toLower (c : Char) : isWord c.toLower = isWord c := by
  rw [Bool.eq_iff_iff, isWord_iff, isWord_iff, toNat_toLower]
  split <;> omega

theorem isWord_of_sameChar (same : sameChar icase a b = true) : isWord a = isWord b := by
  unfold sameChar at same
  cases icase with
  | false => rw [of_decide_eq_true same]
  | true => rw [← isWord_toLower a, of_decide_eq_true same, isWord_toLower]

end Characters

/-! ## The pattern along the key -/

section Pattern

variable {icase : Bool} {c d k : Char} {key cand rest : Text}

/-- The next character of the key is a word character. -/
def InWord (key : Text) : Prop :=
  key.head?.any isWord = true

instance (key : Text) : Decidable (InWord key) :=
  inferInstanceAs (Decidable (_ = true))

theorem inWord_cons : InWord (c :: key) ↔ isWord c = true :=
  Iff.rfl

theorem segments_cons_inWord (word : isWord k = true) {run : Text} {others : List Text}
    (split : segments key = run :: others) (nonempty : run ≠ []) (words : run.all isWord = true) :
    segments (k :: key) = (k :: run) :: others := by
  rcases List.exists_cons_of_ne_nil nonempty with ⟨d, run, rfl⟩
  rw [List.all_cons, Bool.and_eq_true] at words
  rw [segments, if_pos word, split]
  simp only [words.1, if_true]

theorem segments_cons_endWord (word : isWord k = true) (ends : ¬InWord key) :
    segments (k :: key) = [k] :: segments key := by
  rw [segments, if_pos word]
  cases key with
  | nil => rfl
  | cons d key =>
      rw [inWord_cons] at ends
      rw [segments, if_neg ends]
      simp only [ends, Bool.false_eq_true, if_false]

/-- The first segment of a key that begins with a word character is a run of word characters. -/
theorem segments_of_inWord (inWord : InWord key) :
    ∃ run rest, segments key = run :: rest ∧ run ≠ [] ∧ run.all isWord = true := by
  induction key with
  | nil => cases inWord
  | cons c key ih =>
      have word : isWord c = true := inWord
      by_cases next : InWord key
      · rcases ih next with ⟨run, others, split, nonempty, words⟩
        refine ⟨c :: run, others, segments_cons_inWord word split nonempty words, List.cons_ne_nil _ _, ?_⟩
        rw [List.all_cons, word, Bool.true_and, words]
      · exact ⟨[c], segments key, segments_cons_endWord word next, List.cons_ne_nil _ _, by simp [word]⟩

theorem mem_written_singleton {w : Text} :
    w ∈ written icase [k] ↔ ∃ c, sameChar icase c k = true ∧ w = [c] := by
  change List.Forall₂ _ w [k] ↔ _
  rw [List.forall₂_cons_right_iff]
  constructor
  · rintro ⟨c, rest, same, none, rfl⟩
    rw [List.forall₂_nil_right_iff.mp none]
    exact ⟨c, same, rfl⟩
  · rintro ⟨c, same, rfl⟩
    exact ⟨c, [], same, .nil, rfl⟩

theorem written_cons : written icase (k :: key) = written icase [k] * written icase key := by
  ext w
  rw [Language.mem_mul]
  change List.Forall₂ _ w (k :: key) ↔ _
  rw [List.forall₂_cons_right_iff]
  constructor
  · rintro ⟨c, rest, same, along, rfl⟩
    exact ⟨[c], mem_written_singleton.mpr ⟨c, same, rfl⟩, rest, along, rfl⟩
  · rintro ⟨_, first, rest, along, rfl⟩
    rcases mem_written_singleton.mp first with ⟨c, same, rfl⟩
    exact ⟨c, rest, same, along, rfl⟩

theorem completionRegex_other (other : isWord k = false) :
    completionRegex icase (k :: key) = written icase [k] * completionRegex icase key := by
  have split : segments (k :: key) = [k] :: segments key := by
    rw [segments, if_neg (by simp [other])]
  have plain : segmentRegex icase [k] = written icase [k] := by
    rw [segmentRegex, if_neg (by simp [other])]
  rw [completionRegex, split, List.map_cons, List.prod_cons, plain]
  rfl

theorem completionRegex_inWord (word : isWord k = true) (inWord : InWord key) :
    completionRegex icase (k :: key) = written icase [k] * completionRegex icase key := by
  rcases segments_of_inWord inWord with ⟨run, others, split, nonempty, words⟩
  have longer : segmentRegex icase (k :: run) = written icase [k] * segmentRegex icase run := by
    rw [segmentRegex, if_pos (by rw [List.all_cons, word, words]; rfl), segmentRegex, if_pos words,
      written_cons, mul_assoc]
  rw [completionRegex, segments_cons_inWord word split nonempty words, List.map_cons, List.prod_cons, longer,
    completionRegex, split, List.map_cons, List.prod_cons, mul_assoc]

theorem completionRegex_endWord (word : isWord k = true) (ends : ¬InWord key) :
    completionRegex icase (k :: key) =
      written icase [k] * ((ofClass isWord)∗ * completionRegex icase key) := by
  have run : segmentRegex icase [k] = written icase [k] * (ofClass isWord)∗ := by
    rw [segmentRegex, if_pos (by simp [word])]
  rw [completionRegex, segments_cons_endWord word ends, List.map_cons, List.prod_cons, run, mul_assoc]
  rfl

/-! ## The loop and the pattern -/

theorem abbreviates_nil : Abbreviates icase [] cand :=
  ⟨[], cand, rfl, rfl⟩

/-- One character of the pattern, and a rest of it. -/
theorem exists_front_cons_iff {l : Language Char} :
    (∃ front back, front ∈ written icase [k] * l ∧ cand = front ++ back) ↔
      ∃ c rest, cand = c :: rest ∧ sameChar icase c k = true ∧
        ∃ front back, front ∈ l ∧ rest = front ++ back := by
  constructor
  · rintro ⟨front, back, inside, rfl⟩
    rcases Language.mem_mul.mp inside with ⟨first, one, more, inL, rfl⟩
    rcases mem_written_singleton.mp one with ⟨c, same, rfl⟩
    exact ⟨c, more ++ back, rfl, same, more, back, inL, rfl⟩
  · rintro ⟨c, rest, rfl, same, front, back, inL, rfl⟩
    exact ⟨c :: front, back, Language.mem_mul.mpr ⟨[c], mem_written_singleton.mpr ⟨c, same, rfl⟩, front, inL, rfl⟩,
      rfl⟩

/-- A key that goes on with no word character is looked for after all word characters of the candidate. -/
theorem exists_front_kstar_iff (ends : ¬InWord key) :
    (∃ front back, front ∈ (ofClass isWord)∗ * completionRegex icase key ∧ cand = front ++ back) ↔
      Abbreviates icase key (cand.dropWhile isWord) := by
  constructor
  · rintro ⟨front, back, inside, rfl⟩
    rcases Language.mem_mul.mp inside with ⟨run, inRun, more, inKey, rfl⟩
    have words := mem_kstar_ofClass.mp inRun
    cases key with
    | nil => exact abbreviates_nil
    | cons k key =>
        rw [inWord_cons, Bool.not_eq_true] at ends
        have stops : Stops isWord (more ++ back) := by
          rw [completionRegex_other ends] at inKey
          rcases Language.mem_mul.mp inKey with ⟨first, one, others, -, rfl⟩
          rcases mem_written_singleton.mp one with ⟨c, same, rfl⟩
          exact stops_cons.mpr ((isWord_of_sameChar same).trans ends)
        refine ⟨more, back, inKey, ?_⟩
        rw [List.append_assoc, dropWhile_append_of_stops stops, List.dropWhile_eq_nil_iff.mpr words,
          List.nil_append]
  · rintro ⟨front, back, inKey, rest⟩
    refine ⟨cand.takeWhile isWord ++ front, back, Language.mem_mul.mpr ⟨_, ?_, front, inKey, rfl⟩, ?_⟩
    · exact mem_kstar_ofClass.mpr fun c mem => List.mem_takeWhile_imp mem
    · rw [List.append_assoc, ← rest, List.takeWhile_append_dropWhile]

/-- The loop finds the pattern, after the word characters of the candidate where a run has ended. -/
theorem completionLoop_iff (inRun : Bool) (key cand : Text) : completionLoop icase inRun key cand = true ↔
    Abbreviates icase key (if inRun = true ∧ ¬InWord key then cand.dropWhile isWord else cand) := by
  induction key generalizing inRun cand with
  | nil =>
      rw [completionLoop]
      exact iff_of_true rfl abbreviates_nil
  | cons k key ih =>
      by_cases word : isWord k = true
      · rw [completionLoop.eq_def]
        simp only [word, if_true]
        rw [if_neg (fun ends => ends.2 word)]
        have along : Abbreviates icase (k :: key) cand ↔ ∃ c rest, cand = c :: rest ∧
            sameChar icase c k = true ∧
              Abbreviates icase key (if ¬InWord key then rest.dropWhile isWord else rest) := by
          by_cases inWord : InWord key
          · rw [Abbreviates, completionRegex_inWord word inWord, exists_front_cons_iff]
            simp only [inWord, not_true_eq_false, if_false]
            rfl
          · rw [Abbreviates, completionRegex_endWord word inWord, exists_front_cons_iff]
            simp only [inWord, not_false_eq_true, if_true, exists_front_kstar_iff inWord]
        rw [along]
        cases cand with
        | nil => simp
        | cons c cand =>
            by_cases same : sameChar icase c k = true
            · simp [same, ih]
            · simp [same]
      · rw [completionLoop.eq_def]
        simp only [word, Bool.false_eq_true, if_false]
        have dropped : (if inRun = true ∧ ¬InWord (k :: key) then cand.dropWhile isWord else cand) =
            if inRun then cand.dropWhile isWord else cand := by
          simp [inWord_cons, word]
        rw [dropped, Abbreviates, completionRegex_other (Bool.not_eq_true _ ▸ word), exists_front_cons_iff]
        generalize (if inRun then cand.dropWhile isWord else cand) = cand
        change _ ↔ ∃ c rest, cand = c :: rest ∧ sameChar icase c k = true ∧ Abbreviates icase key rest
        cases cand with
        | nil => simp
        | cons c cand =>
            by_cases same : sameChar icase c k = true
            · simp [same, ih]
            · simp [same]

end Pattern

/-- `completion_match` finds a match exactly where the pattern has one. -/
theorem completionMatch_iff (key cand : Text) (icase : Bool) :
    completionMatch key cand icase = true ↔ Abbreviates icase key cand := by
  rw [completionMatch, completionLoop_iff, if_neg (by simp)]

instance (icase : Bool) (key cand : Text) : Decidable (Abbreviates icase key cand) :=
  decidable_of_iff _ (completionMatch_iff key cand icase)

end Rigor.Cli.Options
