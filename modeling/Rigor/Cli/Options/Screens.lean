import Rigor.Cli.Options.Spelling

/-!
# What the parser prints

The texts that `optparse.rs` answers with when it does not return the arguments: the summary of `--help`,
the two completions, and the message of a parse error with its suggestions.
-/

namespace Rigor.Cli.Options

open Rigor.Rust

/-- `parse` and the functions under it take these from outside: the floats, and `program_name`. -/
structure Outside (F : Type) extends Floats F where
  programName : Text

/-- One classified argument. -/
inductive Item (F : Type) where
  | opt (key : Text) (negated : Bool) (value : Option (Value F))
  | positional (text : Text)

/-- What is printed, and the exit code. -/
structure Exit where
  stdout : Text
  stderr : Text
  code : Nat

namespace OptParser

variable {F : Type} (p : OptParser) (out : Outside F)

/-! ## The summary -/

def indent : Text :=
  "    ".toList

def width : Nat :=
  32

/-- `{INDENT}{l:<WIDTH$} {r}` and a line feed. -/
def describedRow (l r : Text) : Text :=
  indent ++ l ++ List.replicate (width - l.length) ' ' ++ " ".toList ++ r ++ "\n".toList

/-- `{INDENT}{l}` and a line feed. -/
def plainRow (l : Text) : Text :=
  indent ++ l ++ "\n".toList

/-- The rows of the left column while it is too wide, and what they leave of the two columns. -/
def wideRows : List Text → List Text → Text × List Text × List Text
  | [], right => ([], [], right)
  | l :: lefts, right =>
      if ∀ left ∈ l :: lefts, Text.len left ≤ width then ([], l :: lefts, right)
      else
        let r := right.headD []
        if Text.len l < width ∧ r ≠ [] then
          let (rows, columns) := wideRows lefts right.tail
          (describedRow l r ++ rows, columns)
        else
          let (rows, columns) := wideRows lefts right
          (plainRow l ++ rows, columns)

/-- The rows of the two columns until both have ended. -/
def rows : List Text → List Text → Text
  | [], [] => []
  | [], r :: right => row [] r ++ rows [] right
  | l :: lefts, [] => row l [] ++ rows lefts []
  | l :: lefts, r :: right => row l r ++ rows lefts right
where
  row (l r : Text) : Text :=
    if r ≠ [] then describedRow l r else plainRow l

/-- The switches that are printed. -/
def listed : List Switch :=
  p.switches.filter fun sw => !sw.hidden && sw.names ≠ []

def helpText : Text :=
  let banner := if p.banner.getLast? = some '\n' then p.banner.dropLast else p.banner
  banner ++ "\n".toList ++ p.listed.flatMap fun sw =>
    let (wide, lefts, right) := wideRows ["    ".toList ++ sw.ldesc ++ sw.argDesc] sw.desc
    wide ++ rows lefts right

/-! ## Completions -/

/-- `candidates`, for `--*-completion-bash`. -/
def candidates (word : Text) : List Text :=
  let (w, arg) :=
    if word = ['-'] then (word, none)
    else if ['-', '-'].isPrefixOf word then
      match Text.splitOnce '=' word with
      | some (h, a) => (h, some a)
      | none => (word, none)
    else (word, none)
  let long := word = ['-'] ∨ ['-', '-'].isPrefixOf word
  (p.switches.filter fun sw => !sw.hidden).flatMap fun sw =>
    let opts := if long ∧ completionMatch w sw.ldesc true then [sw.ldesc] else []
    if ['='].isPrefixOf sw.argDesc then
      match arg, sw.kind with
      | some a, .choice choices => choices.filter fun c => completionMatch a c false
      | _, _ => opts.map (· ++ ['='])
    else opts

/-- The lines of `--*-completion-bash`; no candidate is a line of its own. -/
def bashText (word : Text) : Text :=
  let lines := Text.unlines (p.candidates word)
  if lines = [] then ['\n'] else lines

def escapeDesc (desc : Text) : Text :=
  desc.flatMap fun c => if c = '\\' ∨ c = '"' ∨ c = '[' ∨ c = ']' then ['\\', c] else [c]

/-- One row of `compsys_text`. -/
def compsysRow (name esc : Text) : Text :=
  "  \"".toList ++ name ++ "[".toList ++ esc ++ "]\" \\\n".toList

def compsysText (name : Option Text) : Text :=
  "#compdef ".toList ++ name.getD out.programName ++ "\n".toList ++
    "\ntypeset -A opt_args\nlocal context state line\n\n_arguments -s -S \\\n".toList ++
    (p.listed.flatMap fun sw =>
      let esc := escapeDesc sw.desc.flatten
      match Text.stripPrefix "--[no-]".toList sw.ldesc with
      | some inner => compsysRow ("--".toList ++ inner) esc ++ compsysRow ("--no-".toList ++ inner) esc
      | none => compsysRow sw.ldesc esc) ++
    "  '*:file:_files' && return 0\n".toList

/-- The message of `--version`. -/
def versionText (package : Option Text) : Text :=
  match package with
  | some pkg => out.programName ++ ": no version found in package ".toList ++ pkg ++ "\n".toList
  | none => out.programName ++ ": version unknown\n".toList

/-! ## Errors -/

/-- The names that a suggestion is looked for in. -/
def dictionary : List Text :=
  ((p.switches.filter fun sw => !sw.hidden).flatMap fun sw => sw.names.map Prod.fst) ++
    officiousTable.map Prod.fst ++ [[]]

/-- The block of the suggestions; none is a panic of `spell_correct`. -/
def suggestions (opt : Text) : Option Text :=
  (spellCorrect out.toFloats p.dictionary opt).map fun corrections =>
    if corrections = [] then []
    else "Did you mean?  ".toList ++ List.intercalate "\n               ".toList corrections ++ "\n".toList

/-- `err` without suggestions. -/
def err (msg : Text) : Exit :=
  ⟨[], msg ++ "\n".toList, 64⟩

/-- `err` with the suggestions for an option. -/
def errFor (msg opt : Text) : Option Exit :=
  (p.suggestions out opt).map fun block => ⟨[], msg ++ "\n".toList ++ block, 64⟩

/-- The reason of a refused value. -/
def reason : Optparse.ValueError → Text
  | .invalid => "invalid argument".toList
  | .ambiguous => "ambiguous argument".toList

/-- `value_error`. -/
def valueError (kind : Optparse.ValueError) (token : Text) (viaEq : Bool) (value : Text) : Text :=
  if viaEq then reason kind ++ ": ".toList ++ token
  else reason kind ++ ": ".toList ++ token ++ " ".toList ++ value

/-- `short_value_error`. -/
def shortValueError (kind : Optparse.ValueError) (token : Text) (shifted : Bool) (value : Text) : Text :=
  if shifted then reason kind ++ ": ".toList ++ token ++ " ".toList ++ value
  else reason kind ++ ": ".toList ++ token

end OptParser

end Rigor.Cli.Options
