import Rigor.Rust.Lines

/-!
# Effect labels

The grammar of effect labels, `label.rs`: dot-paths of lowercase segments.
-/

namespace Rigor.Effects.Label

/-- `SEPARATOR`. -/
def separator : Char := '.'

/-- A lowercase letter, then lowercase letters and digits. -/
def validSegment : Text → Bool
  | [] => false
  | first :: rest => first.isLower && rest.all fun c => c.isLower || c.isDigit

def valid (label : Text) : Bool :=
  if label = [] then false else (label.splitOn separator).all validSegment

/-- The segments, outermost first; none for a malformed label. -/
def segments (label : Text) : List Text :=
  if ¬valid label then [] else label.splitOn separator

/-- Whether `bound` admits `label`: on segment boundaries, not on characters. -/
def subsumes (bound label : Text) : Bool :=
  if ¬valid bound ∨ ¬valid label then false
  else if bound = label then true
  else
    bound.len < label.len && bound.isPrefixOf label &&
      label.bytes[bound.len]? = some separator.val.toUInt8

/-- The label one segment shallower. -/
def parent (label : Text) : Option Text :=
  if ¬valid label then none
  else (Text.rsplitOnce [separator] label).map Prod.fst

/-- The text in front of each separator, `match_indices`. -/
def fronts : Text → List Text
  | [] => []
  | c :: rest => (if c = separator then [[]] else []) ++ (fronts rest).map (c :: ·)

/-- The proper ancestors, outermost first. -/
def ancestors (label : Text) : List Text :=
  if (segments label).length ≤ 1 then [] else fronts label

/-- The outermost segment. -/
def root (label : Text) : Option Text :=
  (segments label).head?

example : ancestors "io.net.http".toList = ["io".toList, "io.net".toList] := by
  decide

end Rigor.Effects.Label
