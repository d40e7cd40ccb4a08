import Rigor.Library.Entries
import Rigor.Rust.Lines

/-!
# YAML values of the configuration

The values `serde_yaml` reads, and what `config.rs` makes of them as Ruby would: the array of a
value, its `to_s` and its `inspect`.
-/

namespace Rigor.Cli.Config

open Rigor.Library.Entries

/-- `serde_yaml::Value`, over its numbers. -/
inductive Value (N : Type) where
  | null
  | bool (b : Bool)
  | number (n : N)
  | string (s : Text)
  | sequence (items : List (Value N))
  | mapping (entries : List (Value N × Value N))
  | tagged (tag : Text) (value : Value N)

/-- `serde_yaml::Mapping`, in the order of its entries. -/
abbrev Mapping (N : Type) := List (Value N × Value N)

variable {N : Type}

namespace Value

/-- `Value::as_str`, which looks through tags. -/
def asStr : Value N → Option Text
  | .string s => some s
  | .tagged _ value => value.asStr
  | _ => none

/-- `Value::is_null`, which looks through tags. -/
def isNull : Value N → Bool
  | .null => true
  | .tagged _ value => value.isNull
  | _ => false

end Value

/-- The equality of `serde_yaml::Value`, by which a mapping finds its keys. -/
structure SerdeYaml (N : Type) extends Sameness (Value N) where
  string_same (s : Text) (key : Value N) : same (.string s) key = true ↔ key = .string s
  asStr_same {a b : Value N} : same a b = true → a.asStr = b.asStr

/-! ## Ruby's readings -/

def rubyArrayRaw : Value N → List (Value N)
  | .null => []
  | .sequence items => items
  | .mapping entries => entries.map fun (k, v) => .sequence [k, v]
  | scalar => [scalar]

def boolText (b : Bool) : Text :=
  if b then "true".toList else "false".toList

/-- How the libraries print a number and quote a string (`{:?}`). -/
structure Texts (N : Type) where
  number : N → Text
  debug : Text → Text

mutual

def rubyInspect (texts : Texts N) : Value N → Text
  | .null => "nil".toList
  | .bool b => boolText b
  | .number n => texts.number n
  | .string s => texts.debug s
  | .sequence items => '[' :: (", ".toList).intercalate (rubyInspectItems texts items) ++ [']']
  | .mapping entries => '{' :: (", ".toList).intercalate (rubyInspectEntries texts entries) ++ ['}']
  | .tagged _ value => rubyInspect texts value

def rubyInspectItems (texts : Texts N) : List (Value N) → List Text
  | [] => []
  | item :: items => rubyInspect texts item :: rubyInspectItems texts items

def rubyInspectEntries (texts : Texts N) : List (Value N × Value N) → List Text
  | [] => []
  | (key, value) :: entries =>
      (rubyInspect texts key ++ " => ".toList ++ rubyInspect texts value) ::
        rubyInspectEntries texts entries

end

def rubyToS (texts : Texts N) : Value N → Text
  | .null => []
  | .bool b => boolText b
  | .number n => texts.number n
  | .string s => s
  | .sequence items => rubyInspect texts (.sequence items)
  | .mapping entries => rubyInspect texts (.mapping entries)
  | .tagged _ value => rubyToS texts value

/-! ## Distinct keys -/

/-- The mappings of a value, one inside the other, have distinct keys. -/
inductive WellKeyed (E : Sameness (Value N)) : Value N → Prop where
  | mapping {entries : Mapping N} (keys : E.Distinct entries)
      (values : ∀ entry ∈ entries, WellKeyed E entry.2) : WellKeyed E (.mapping entries)
  | other {value : Value N} (noMapping : ∀ entries, value ≠ .mapping entries) : WellKeyed E value

end Rigor.Cli.Config
