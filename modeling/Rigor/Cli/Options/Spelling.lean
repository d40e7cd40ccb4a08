import Mathlib.Data.List.Basic
import Rigor.Cli.Options.Lookup
import Rigor.Library.Runs

/-!
# The spelling suggestions

`spell_correct` of `optparse.rs`: the Jaro and Jaro-Winkler scores and the edit distance of the `did_you_mean`
gem.  Their loops index vectors and shift the bits of a `u128`; an index or a shift out of range is a panic, and
here no result.
-/

namespace Rigor.Cli.Options

open Rigor.Library.Runs Rigor.Rust

/-- What the scores take from the floats and from Unicode.  The counts under a score are at most 120, and a score
is a finite float. -/
structure Floats (F : Type) where
  /-- `f64::from_str`. -/
  parseFloat : Text → Option F
  zero : F
  /-- `(m / l1 + m / l2 + (m - t) / m) / 3.0`. -/
  score : Nat → Nat → Nat → Nat → F
  /-- `d > 0.7`. -/
  high : F → Bool
  /-- `d + prefix * 0.1 * (1.0 - d)`. -/
  boost : F → Nat → F
  /-- The score is at least `0.834`, or `0.77` for a short input. -/
  meets : Bool → F → Bool
  partialCmp : F → F → Option Ordering
  /-- `(n as f64 * 0.25).ceil()`. -/
  quarter : Nat → Nat
  /-- `to_lowercase`. -/
  toLowercase : Text → Text

/-! ## Jaro -/

/-- `flags & (1 << j) != 0`. -/
def flagged (flags j : Nat) : Option Bool :=
  if j < 128 then some (flags.testBit j) else none

/-- `flags |= 1 << j`. -/
def flag (flags j : Nat) : Option Nat :=
  if j < 128 then some (flags ||| 2 ^ j) else none

/-- The free place of the letter between `j` and `last`. -/
def partner (c : Char) (s2 : Text) (flags2 last j : Nat) : Option (Option Nat) :=
  if j ≤ last ∧ j < s2.length then do
    if ← flagged flags2 j then partner c s2 flags2 last (j + 1)
    else if c = (← s2[j]?) then return some j
    else partner c s2 flags2 last (j + 1)
  else some none
termination_by s2.length - j

/-- The matches so far and the flags of the two words. -/
structure Matching where
  m : Nat
  flags1 : Nat
  flags2 : Nat

def matchLetter (s2 : Text) (range : Nat) (found : Matching) (entry : Char × Nat) : Option Matching := do
  match ← partner entry.1 s2 found.flags2 (entry.2 + range) (entry.2 - range) with
  | some j => return ⟨found.m + 1, ← flag found.flags1 entry.2, ← flag found.flags2 j⟩
  | none => return found

/-- The last place that is looked at from `j` on, and the flagged one or the end. -/
def nextFlagged (flags2 l2 index j : Nat) : Option (Nat × Nat) :=
  if j < l2 then do
    if ← flagged flags2 j then return (j, j)
    else nextFlagged flags2 l2 j (j + 1)
  else some (index, j)
termination_by l2 - j

/-- The transpositions so far, and where the next partner is looked for. -/
def transposeLetter (found : Matching) (s2 : Text) (state : Nat × Nat) (entry : Char × Nat) :
    Option (Nat × Nat) := do
  if ← flagged found.flags1 entry.2 then
    let (index, j) ← nextFlagged found.flags2 s2.length state.2 state.2
    let k := if j < s2.length then j + 1 else s2.length
    if index < s2.length then
      let c2 ← s2[index]?
      return (if entry.1 ≠ c2 then state.1 + 1 else state.1, k)
    else return (state.1, k)
  else return state

section Scores

variable {F : Type} (fl : Floats F)

/-- `jaro` of the shorter word and the longer one. -/
def jaroOrdered (s1 s2 : Text) : Option F :=
  if s1.length = 0 ∨ s2.length = 0 ∨ s1.length > 120 ∨ s2.length > 120 then some fl.zero
  else do
    let range := if s2.length > 3 then s2.length / 2 - 1 else 0
    let found ← s1.zipIdx.foldlM (matchLetter s2 range) ⟨0, 0, 0⟩
    let (t, _) ← s1.zipIdx.foldlM (transposeLetter found s2) (0, 0)
    return if found.m = 0 then fl.zero else fl.score found.m (t / 2) s1.length s2.length

def jaro (s1 s2 : Text) : Option F :=
  if s1.length > s2.length then jaroOrdered fl s2 s1 else jaroOrdered fl s1 s2

/-- The common letters at the front, up to four. -/
def commonPrefix (s2 : Text) : Text → Nat → Option Nat
  | [], n => some n
  | c :: s1, n =>
      if n < s2.length then do
        if c = (← s2[n]?) ∧ n < 4 then commonPrefix s2 s1 (n + 1) else return n
      else some n

def jaroWinkler (a b : Text) : Option F := do
  let d ← jaro fl a b
  if fl.high d then return fl.boost d (← commonPrefix b a 0)
  else return d

end Scores

/-! ## The edit distance -/

/-- `d[j] = i`. -/
def setAt (d : List Nat) (j i : Nat) : Option (List Nat) :=
  if j < d.length then some (d.set j i) else none

/-- The inner loop: the row of a letter and the last entry. -/
def levenshteinRow (c1 : Char) (s2 : Text) (d : List Nat) (i x j : Nat) : Option (List Nat × Nat) :=
  if j < s2.length then do
    let cost := if c1 ≠ (← s2[j]?) then 1 else 0
    let a := (← d[j + 1]?) + 1
    let b := i + 1
    let c := (← d[j]?) + cost
    let x := if a < b ∧ a < c then a else if b < c then b else c
    levenshteinRow c1 s2 (← setAt d j i) x x (j + 1)
  else some (d, x)
termination_by s2.length - j

def levenshteinLetter (s2 : Text) (state : List Nat × Nat) (entry : Char × Nat) : Option (List Nat × Nat) := do
  let (d, x) ← levenshteinRow entry.1 s2 state.1 (entry.2 + 1) state.2 0
  return (← setAt d s2.length x, x)

/-- `dym_levenshtein`. -/
def dymLevenshtein (a b : Text) : Option Nat :=
  if a.length = 0 then some b.length
  else if b.length = 0 then some a.length
  else do
    let (_, x) ← a.zipIdx.foldlM (levenshteinLetter b) (List.range (b.length + 1), 0)
    return x

/-! ## The corrections -/

section Corrections

variable {F : Type} (fl : Floats F)

/-- `norm`. -/
def norm (word : Text) : Text :=
  (fl.toLowercase word).filter (· ≠ '@')

/-- The first word that is nearer to the input than one of the two is long. -/
def firstNear (ni : Text) : List Text → Option (List Text)
  | [] => some []
  | w :: words => do
      if (← dymLevenshtein (norm fl w) ni) < min ni.length (norm fl w).length then return [w]
      else firstNear ni words

/-- The words with a function of each. -/
def scoredBy {γ : Type} (f : Text → Option γ) (words : List Text) : Option (List (Text × γ)) :=
  words.mapM fun w => do return (w, ← f w)

def spellCheckerCorrect (dict : List Text) (input : Text) : Option (List Text) := do
  let ni := norm fl input
  let scores ← scoredBy (fun w => jaroWinkler fl (norm fl w) ni) dict
  let words := (scores.filter fun entry => fl.meets (ni.length > 3) entry.2).map Prod.fst
  let words := words.filter (· ≠ input)
  let scored ← scoredBy (fun w => jaroWinkler fl w ni) words
  let words := (scored.mergeSort fun a b => fl.partialCmp a.2 b.2 ≠ some .gt).reverse.map Prod.fst
  let distances ← scoredBy (fun w => dymLevenshtein (norm fl w) ni) words
  let corrections := (distances.filter fun entry => entry.2 ≤ fl.quarter ni.length).map Prod.fst
  if corrections = [] then firstNear fl ni words
  else return corrections

/-- `spell_correct`: the corrections in the order of the dictionary. -/
def spellCorrect (dict : List Text) (input : Text) : Option (List Text) := do
  let corrections ← spellCheckerCorrect fl dict input
  return (dict.filter (· ∈ corrections)).eraseDups

end Corrections

/-! ## No index and no shift is out of range -/

section Ranges

variable {c : Char} {s1 s2 : Text} {flags flags2 last index j : Nat}

theorem flagged_eq (inside : j < 128) : flagged flags j = some (flags.testBit j) :=
  if_pos inside

theorem flag_eq (inside : j < 128) : flag flags j = some (flags ||| 2 ^ j) :=
  if_pos inside

/-- A partner is a place of the longer word. -/
theorem exists_partner_eq (short : s2.length ≤ 120) (c : Char) (flags2 last j : Nat) :
    ∃ found, partner c s2 flags2 last j = some found ∧ ∀ k ∈ found, k < s2.length := by
  rw [partner]
  by_cases inside : j ≤ last ∧ j < s2.length
  · have later := exists_partner_eq short c flags2 last (j + 1)
    rw [if_pos inside, flagged_eq (by omega), List.getElem?_eq_getElem inside.2]
    simp only [Option.bind_eq_bind, Option.bind_some]
    split
    · exact later
    · split
      · exact ⟨some j, rfl, fun k mem => by cases mem; exact inside.2⟩
      · exact later
  · rw [if_neg inside]
    exact ⟨none, rfl, by simp⟩
termination_by s2.length - j

theorem exists_matchLetter_eq (short : s2.length ≤ 120) (range : Nat) (found : Matching) {entry : Char × Nat}
    (front : entry.2 < 120) : ∃ next, matchLetter s2 range found entry = some next := by
  rcases exists_partner_eq short entry.1 found.flags2 (entry.2 + range) (entry.2 - range) with
    ⟨place, looked, inside⟩
  rw [matchLetter, looked]
  simp only [Option.bind_eq_bind, Option.bind_some]
  cases place with
  | none => exact ⟨found, rfl⟩
  | some j =>
      have free := inside j rfl
      have first : flag found.flags1 entry.2 = some _ := flag_eq (by omega)
      have second : flag found.flags2 j = some _ := flag_eq (by omega)
      simp only [first, second, Option.bind_some]
      exact ⟨_, rfl⟩

theorem exists_nextFlagged_eq {l2 : Nat} (short : l2 ≤ 120) (flags2 index j : Nat) :
    ∃ found, nextFlagged flags2 l2 index j = some found := by
  rw [nextFlagged]
  by_cases inside : j < l2
  · have later := exists_nextFlagged_eq short flags2 j (j + 1)
    rw [if_pos inside, flagged_eq (by omega)]
    simp only [Option.bind_eq_bind, Option.bind_some]
    split
    · exact ⟨_, rfl⟩
    · exact later
  · rw [if_neg inside]
    exact ⟨_, rfl⟩
termination_by l2 - j

theorem exists_transposeLetter_eq (short : s2.length ≤ 120) (found : Matching) (state : Nat × Nat)
    {entry : Char × Nat} (front : entry.2 < 120) :
    ∃ next, transposeLetter found s2 state entry = some next := by
  rw [transposeLetter, flagged_eq (by omega)]
  simp only [Option.bind_eq_bind, Option.bind_some]
  split
  · rcases exists_nextFlagged_eq short found.flags2 state.2 state.2 with ⟨⟨index, j⟩, looked⟩
    rw [looked]
    simp only [Option.bind_some]
    split
    · rename_i inside
      rw [List.getElem?_eq_getElem inside]
      exact ⟨_, rfl⟩
    · exact ⟨_, rfl⟩
  · exact ⟨_, rfl⟩

variable {F : Type} (fl : Floats F)

theorem exists_jaroOrdered_eq (s1 s2 : Text) : ∃ d, jaroOrdered fl s1 s2 = some d := by
  unfold jaroOrdered
  by_cases far : s1.length = 0 ∨ s2.length = 0 ∨ s1.length > 120 ∨ s2.length > 120
  · rw [if_pos far]
    exact ⟨_, rfl⟩
  · rw [if_neg far]
    push Not at far
    have front {entry : Char × Nat} (mem : entry ∈ s1.zipIdx) : entry.2 < 120 := by
      have bound : entry.2 < s1.length := List.snd_lt_of_mem_zipIdx mem
      omega
    have matches_ (range : Nat) :
        ∃ found, s1.zipIdx.foldlM (matchLetter s2 range) ⟨0, 0, 0⟩ = some found ∧ True := by
      refine exists_foldlM_eq (fun _ => True) trivial fun found entry mem _ => ?_
      rcases exists_matchLetter_eq far.2.2.2 range found (front mem) with ⟨next, step⟩
      exact ⟨next, step, trivial⟩
    have transposes (found : Matching) :
        ∃ state, s1.zipIdx.foldlM (transposeLetter found s2) (0, 0) = some state ∧ True := by
      refine exists_foldlM_eq (fun _ => True) trivial fun state entry mem _ => ?_
      rcases exists_transposeLetter_eq far.2.2.2 found state (front mem) with ⟨next, step⟩
      exact ⟨next, step, trivial⟩
    rcases matches_ (if s2.length > 3 then s2.length / 2 - 1 else 0) with ⟨found, matched, -⟩
    rcases transposes found with ⟨state, transposed, -⟩
    simp only [matched, transposed, Option.bind_eq_bind, Option.bind_some]
    exact ⟨_, rfl⟩

theorem exists_commonPrefix_eq (s2 s1 : Text) (n : Nat) : ∃ k, commonPrefix s2 s1 n = some k := by
  induction s1 generalizing n with
  | nil => exact ⟨n, rfl⟩
  | cons c s1 ih =>
      rw [commonPrefix]
      split
      · rename_i inside
        rw [List.getElem?_eq_getElem inside]
        simp only [Option.bind_eq_bind, Option.bind_some]
        split
        · exact ih (n + 1)
        · exact ⟨n, rfl⟩
      · exact ⟨n, rfl⟩

theorem exists_jaroWinkler_eq (a b : Text) : ∃ d, jaroWinkler fl a b = some d := by
  have jaros : ∃ d, jaro fl a b = some d := by
    unfold jaro
    split
    · exact exists_jaroOrdered_eq fl b a
    · exact exists_jaroOrdered_eq fl a b
  rcases jaros with ⟨d, first⟩
  rcases exists_commonPrefix_eq b a 0 with ⟨k, common⟩
  rw [jaroWinkler, first]
  simp only [common, Option.bind_eq_bind, Option.bind_some]
  split
  · exact ⟨_, rfl⟩
  · exact ⟨_, rfl⟩

/-! ### The rows of the distance -/

theorem setAt_eq {d : List Nat} {i : Nat} (inside : j < d.length) : setAt d j i = some (d.set j i) :=
  if_pos inside

/-- A row has one entry more than the word has letters. -/
theorem exists_levenshteinRow_eq (c1 : Char) (s2 : Text) {d : List Nat} (row : d.length = s2.length + 1)
    (i x j : Nat) : ∃ d' x', levenshteinRow c1 s2 d i x j = some (d', x') ∧ d'.length = s2.length + 1 := by
  rw [levenshteinRow]
  by_cases inside : j < s2.length
  · rw [if_pos inside, List.getElem?_eq_getElem inside, List.getElem?_eq_getElem (show j + 1 < d.length by omega),
      List.getElem?_eq_getElem (show j < d.length by omega), setAt_eq (by omega)]
    simp only [Option.bind_eq_bind, Option.bind_some]
    exact exists_levenshteinRow_eq c1 s2 (by rw [List.length_set, row]) _ _ (j + 1)
  · rw [if_neg inside]
    exact ⟨d, x, rfl, row⟩
termination_by s2.length - j

theorem exists_dymLevenshtein_eq (a b : Text) : ∃ n, dymLevenshtein a b = some n := by
  unfold dymLevenshtein
  split
  · exact ⟨_, rfl⟩
  · split
    · exact ⟨_, rfl⟩
    · have rows : ∃ state, a.zipIdx.foldlM (levenshteinLetter b) (List.range (b.length + 1), 0) = some state ∧
          state.1.length = b.length + 1 := by
        refine exists_foldlM_eq (fun state : List Nat × Nat => state.1.length = b.length + 1)
          List.length_range fun state entry _ row => ?_
        rcases exists_levenshteinRow_eq entry.1 b row (entry.2 + 1) state.2 0 with ⟨d, x, scanned, row'⟩
        refine ⟨(d.set b.length x, x), ?_, by rw [List.length_set, row']⟩
        rw [levenshteinLetter, scanned]
        simp only [Option.bind_eq_bind, Option.bind_some, setAt_eq (show b.length < d.length by omega)]
        rfl
      rcases rows with ⟨state, folded, -⟩
      rw [folded]
      exact ⟨state.2, rfl⟩

/-! ### The lists of words -/

theorem exists_scoredBy_eq {γ : Type} {f : Text → Option γ} (defined : ∀ w, ∃ c, f w = some c)
    (words : List Text) : ∃ scored, scoredBy f words = some scored := by
  induction words with
  | nil => exact ⟨[], rfl⟩
  | cons w words ih =>
      rcases defined w with ⟨c, first⟩
      rcases ih with ⟨scored, rest⟩
      unfold scoredBy at rest ⊢
      rw [List.mapM_cons, first, rest]
      exact ⟨(w, c) :: scored, rfl⟩

theorem exists_firstNear_eq (ni : Text) (words : List Text) : ∃ found, firstNear fl ni words = some found := by
  induction words with
  | nil => exact ⟨[], rfl⟩
  | cons w words ih =>
      rcases exists_dymLevenshtein_eq (norm fl w) ni with ⟨n, distance⟩
      rw [firstNear, distance]
      simp only [Option.bind_eq_bind, Option.bind_some]
      split
      · exact ⟨[w], rfl⟩
      · exact ih

/-- Whatever the dictionary and the word, the suggestions come without an index out of range. -/
theorem exists_spellCorrect_eq (dict : List Text) (input : Text) :
    ∃ found, spellCorrect fl dict input = some found := by
  have near (f : Text → Text) (words : List Text) :
      ∃ scored, scoredBy (fun w => jaroWinkler fl (f w) (norm fl input)) words = some scored :=
    exists_scoredBy_eq (fun w => exists_jaroWinkler_eq fl (f w) _) words
  have distant (words : List Text) :
      ∃ scored, scoredBy (fun w => dymLevenshtein (norm fl w) (norm fl input)) words = some scored :=
    exists_scoredBy_eq (fun w => exists_dymLevenshtein_eq (norm fl w) _) words
  have corrected : ∃ corrections, spellCheckerCorrect fl dict input = some corrections := by
    unfold spellCheckerCorrect
    rcases near (norm fl) dict with ⟨scores, first⟩
    rcases near id (((scores.filter fun entry => fl.meets ((norm fl input).length > 3) entry.2).map
      Prod.fst).filter (· ≠ input)) with ⟨scored, second⟩
    rcases distant ((scored.mergeSort fun a b => fl.partialCmp a.2 b.2 ≠ some .gt).reverse.map Prod.fst) with
      ⟨distances, third⟩
    simp only [id_eq] at second
    simp only [first, second, third, Option.bind_eq_bind, Option.bind_some]
    split
    · exact exists_firstNear_eq fl _ _
    · exact ⟨_, rfl⟩
  rcases corrected with ⟨corrections, found⟩
  rw [spellCorrect, found]
  exact ⟨_, rfl⟩

end Ranges

end Rigor.Cli.Options
