import Mathlib.Algebra.Group.Int.Defs
import Mathlib.Algebra.Group.Nat.Defs
import Mathlib.Data.List.Basic

/-!
# Text

A Rust `String` is a sequence of Unicode scalar values.  Rust compares strings by their UTF-8 bytes,
which is the lexicographic comparison of their characters.
-/

namespace Rigor

abbrev Text := List Char

/-- `Ord for str`. -/
def Text.cmp (a b : Text) : Ordering :=
  List.compareLex compare a b

instance : Std.TransCmp Text.cmp :=
  inferInstanceAs (Std.TransCmp (List.compareLex compare))

instance : Std.LawfulEqCmp Text.cmp :=
  inferInstanceAs (Std.LawfulEqCmp (List.compareLex compare))

/-! Membership in a list of texts or of paths is decided by these. -/

instance : LawfulBEq Text :=
  inferInstance

instance : LawfulBEq (List Text) :=
  inferInstance

end Rigor
