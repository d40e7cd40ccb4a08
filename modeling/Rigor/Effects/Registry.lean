import Rigor.Effects.Label
import Rigor.Library.EditDistance
import Std.Data.ExtTreeSet.Lemmas
import Std.Data.ExtTreeMap.Lemmas

/-!
# The vocabulary of effect labels

The registry of `registry.rs`: the declared labels with their ancestors, and the
nearest known label to a misspelling.
-/

namespace Rigor.Effects

open Std Rigor.Library

/-- `SUGGESTION_DISTANCE_CAP`. -/
def suggestionDistanceCap : Nat := 2

/-- The replacements of a retired spelling, a scalar or a list. -/
inductive Replacements where
  | one (label : Text)
  | many (labels : List Text)

structure Registry where
  vocabularyVersion : Nat
  labels : List Text
  known : ExtTreeSet Text Text.cmp
  roots : List Text
  retired : ExtTreeMap Text (List Text) Text.cmp
  descriptions : ExtTreeMap Text Text Text.cmp

/-- `build_known`: the declared labels and all their ancestors. -/
def buildKnown (labels : List Text) : ExtTreeSet Text Text.cmp :=
  labels.foldl (fun known declared =>
    (Label.ancestors declared).foldl (fun known ancestor => known.insert ancestor) known)
    (ExtTreeSet.ofList labels _)

/-! ## Distances -/

/-- The inner loop of `levenshtein`: `previous` from the column on, and the entry of
the current row to the left. -/
def columns (char : Char) : Text → List Nat → Nat → List Nat
  | other :: to_, diagonal :: above :: previous, left =>
      let cost := if char ≠ other then 1 else 0
      let value := min (min (left + 1) (above + 1)) (diagonal + cost)
      value :: columns char to_ (above :: previous) value
  | _, _, _ => []

/-- The outer loop of `levenshtein`; `none` when a whole row exceeds the cap. -/
def rows (cap : Nat) (to_ : Text) : Nat → Text → List Nat → Option (List Nat)
  | _, [], previous => some previous
  | row, char :: from_, previous =>
      let current := (row + 1) :: columns char to_ previous (row + 1)
      if (current.min?.getD (cap + 1)) > cap then none
      else rows cap to_ (row + 1) from_ current

/-- `levenshtein`.  The callers' caps are small, so that `cap + 1` is a `usize`. -/
def levenshtein (from_ to_ : Text) (cap : Nat) : Nat :=
  let beyond := cap + 1
  if (from_.length - to_.length) + (to_.length - from_.length) > cap then beyond
  else
    match rows cap to_ 0 from_ (List.range (to_.length + 1)) with
    | none => beyond
    | some previous =>
        let last := previous.getD to_.length 0
        if last > cap then beyond else last

namespace Registry

/-- `Registry::new`. -/
def new (vocabularyVersion : Nat) (labels : List Text)
    (retired : ExtTreeMap Text Replacements Text.cmp)
    (descriptions : ExtTreeMap Text Text Text.cmp) : Registry :=
  let labels := (ExtTreeSet.ofList labels Text.cmp).toList
  let known := buildKnown labels
  { vocabularyVersion
    labels
    known
    roots := known.toList.filter fun candidate => (Label.parent candidate).isNone
    retired := retired.map fun _ replacements =>
      match replacements with
      | .one label => [label]
      | .many labels => labels
    descriptions := descriptions.map fun _ text =>
      [' '].intercalate ((text.splitOnP Rust.isWhitespace).filter (· ≠ [])) }

/-- One candidate of `suggest`, with the best label and its distance so far. -/
def consider (label : Text) (best : Option Text × Nat) (candidate : Text) : Option Text × Nat :=
  let distance := levenshtein label candidate best.2
  if distance < best.2 then (some candidate, distance) else best

/-- `Registry::suggest`. -/
def suggest (registry : Registry) (label : Text) : Option Text :=
  if ¬Label.valid label ∨ label ∈ registry.known then none
  else
    (registry.known.toList.foldl (consider label) (none, suggestionDistanceCap + 1)).1

end Registry

end Rigor.Effects
