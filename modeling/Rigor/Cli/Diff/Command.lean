import Rigor.Cli.Json.Writer

/-!
# The `diff` command

`diff.rs` compares the rows of a check with a saved JSON output: the rows gained and the rows resolved, by the
six fields that identify a row.  The `serde_json` crate is not part of the repository; it enters as `Serde`.
-/

namespace Rigor.Cli.Diff

open Rigor.Cli.Check Rigor.Cli.Json Rigor.Library.Json Rigor.Rules Rigor.Rust

/-! ## Values -/

/-- `serde_json`: an object has its members in the order of their names. -/
structure Serde where
  /-- `from_str`, with the text of its error. -/
  fromStr : Text → Except Text Value
  /-- `Value::to_string`. -/
  toString : Value → Text
  /-- `to_string_pretty`. -/
  toStringPretty : Value → Text

/-- `Map::insert`. -/
def insertMember (key : Text) (value : Value) : List (Text × Value) → List (Text × Value)
  | [] => [(key, value)]
  | (held, old) :: rest =>
      match Text.cmp key held with
      | .lt => (key, value) :: (held, old) :: rest
      | .eq => (key, value) :: rest
      | .gt => (held, old) :: insertMember key value rest

/-- The map of members that are inserted one after the other. -/
def mapOf (members : List (Text × Value)) : List (Text × Value) :=
  members.foldl (fun map member => insertMember member.1 member.2 map) []

/-- `Value::get` of a name. -/
def get (value : Value) (key : Text) : Option Value :=
  match value with
  | .obj members => members.lookup key
  | _ => none

/-- `json!` of a `usize`. -/
def numberOf (n : Nat) : Value :=
  .number (Nat.toDigits 10 n)

/-! ## Rows -/

/-- `diagnostic_value`. -/
def diagnosticValue (finding : Finding) : Value :=
  let (line, col) := lineCol finding.source finding.diag.startOffset
  let map := insertMember "path".toList (.str finding.path) []
  let map := insertMember "line".toList (numberOf line) map
  let map := insertMember "column".toList (numberOf col) map
  let map := insertMember "severity".toList (.str (severityText finding.diag.severity)) map
  let map := insertMember "rule".toList (((qualifiedRule finding.diag).map Value.str).getD .null) map
  let map := insertMember "source_family".toList (.str finding.diag.sourceFamily) map
  let map := insertMember "message".toList (.str finding.diag.message) map
  let map :=
    match finding.diag.receiverType with
    | some rt => insertMember "receiver_type".toList (.str rt) map
    | none => map
  let map :=
    match finding.diag.methodName with
    | some mn => insertMember "method_name".toList (.str mn) map
    | none => map
  .obj <|
    match catalog finding.diag.ruleId with
    | some entry =>
        insertMember "documentation_url".toList (.str entry.documentationUrl)
          (insertMember "evidence_tier".toList (.str entry.evidenceTier) map)
    | none => map

/-- `KEY_FIELDS`. -/
def keyFields : List Text :=
  ["path", "line", "column", "rule", "source_family", "message"].map String.toList

def identityFor (serde : Serde) (diagnostic : Value) : List Text :=
  keyFields.map fun key => serde.toString ((get diagnostic key).getD .null)

/-- `Diff`. -/
structure Delta where
  new : List Value
  fixed : List Value

def computeDiff (serde : Serde) (baseline current : List Value) : Delta where
  new := current.filter fun d => identityFor serde d ∉ baseline.map (identityFor serde)
  fixed := baseline.filter fun d => identityFor serde d ∉ current.map (identityFor serde)

/-! ## Loading -/

/-- What the command asks of the file system. -/
structure Files where
  isFile : Text → Bool
  readToString : Text → Except Text Text

/-- `load_diagnostics`, with the line of its failure. -/
def loadDiagnostics (serde : Serde) (files : Files) (path : Text) : Except Text (List Value) :=
  if !files.isFile path then .error ("Baseline file not found: ".toList ++ path)
  else
    match files.readToString path with
    | .error e => .error ("Cannot read ".toList ++ path ++ ": ".toList ++ e)
    | .ok text =>
        match serde.fromStr text with
        | .ok (.obj members) =>
            match members.lookup "diagnostics".toList with
            | some (.arr rows) => .ok rows
            | _ => .ok []
        | .ok (.arr rows) => .ok rows
        | .ok _ => .ok []
        | .error e => .error ("Invalid JSON in ".toList ++ path ++ ": ".toList ++ e)

/-! ## Output -/

/-- A scalar as plain text. -/
def plain (serde : Serde) : Option Value → Text
  | some (.str s) => s
  | some .null => []
  | none => []
  | some other => serde.toString other

def qualifiedRuleFor (serde : Serde) (d : Value) : Text :=
  let rule := plain serde (get d "rule".toList)
  let family := plain serde (get d "source_family".toList)
  if family = [] ∨ family = builtin then rule else family ++ ['.'] ++ rule

def renderDiagnostic (serde : Serde) (d : Value) : Text :=
  plain serde (get d "path".toList) ++ [':'] ++ plain serde (get d "line".toList) ++ [':'] ++
    plain serde (get d "column".toList) ++ " [".toList ++ qualifiedRuleFor serde d ++ "] ".toList ++
    plain serde (get d "message".toList)

/-- `write_diff_text`. -/
def writeDiffText (serde : Serde) (diff : Delta) (baselinePath : Text) (baselineCount currentCount : Nat) :
    List Text :=
  ["# diff against ".toList ++ baselinePath ++ " (".toList ++ Nat.toDigits 10 baselineCount ++
      " baseline / ".toList ++ Nat.toDigits 10 currentCount ++ " current)".toList] ++
    diff.new.map (fun d => "+ NEW   ".toList ++ renderDiagnostic serde d) ++
    diff.fixed.map (fun d => "- FIXED ".toList ++ renderDiagnostic serde d) ++
    [[], Nat.toDigits 10 diff.new.length ++ " new, ".toList ++ Nat.toDigits 10 diff.fixed.length ++
      " fixed".toList]

/-- `stamp_pretty` without a mode. -/
def stampPretty (pretty : Text) : Text :=
  let head := "\x7b\n  \"schema_version\": 1".toList
  match Text.stripPrefix "\x7b\n".toList pretty with
  | some rest => head ++ ",\n".toList ++ rest
  | none => head ++ "\n\x7d".toList

/-- `write_diff_json`. -/
def writeDiffJson (serde : Serde) (diff : Delta) (baselinePath : Text) (baselineCount currentCount : Nat) :
    List Text :=
  let payload := mapOf [("baseline".toList, .str baselinePath),
    ("baseline_count".toList, numberOf baselineCount), ("current_count".toList, numberOf currentCount),
    ("new".toList, .arr diff.new), ("fixed".toList, .arr diff.fixed)]
  [stampPretty (serde.toStringPretty (.obj payload))]

/-! ## The command -/

/-- `USAGE`. -/
def usage : Text :=
  "Usage: rigor diff [options] <rigor-check.json> [paths...]".toList

/-- What the options parse to. -/
structure DiffOptions where
  json : Bool
  currentPath : Option Text
  positionals : List Text

/-- The exit status and the lines of a run. -/
structure Outcome where
  exit : Nat
  stdout : List Text
  stderr : List Text

/-- The rows of the current side; `run` is what `run_current` finds in some roots, or its refusal. -/
def currentRows (serde : Serde) (files : Files) (run : List Text → Except Outcome (List Finding))
    (options : DiffOptions) (paths : List Text) : Except Outcome (List Value) :=
  match options.currentPath with
  | some path =>
      match loadDiagnostics serde files path with
      | .ok rows => .ok rows
      | .error line => .error ⟨64, [], [line]⟩
  | none =>
      match run paths with
      | .ok findings => .ok (findings.map diagnosticValue)
      | .error refused => .error refused

/-- `cmd_diff`, after its options are parsed. -/
def cmdDiff (serde : Serde) (files : Files) (run : List Text → Except Outcome (List Finding))
    (options : DiffOptions) : Outcome :=
  match options.positionals with
  | [] => ⟨64, [], [usage]⟩
  | baselinePath :: paths =>
      match loadDiagnostics serde files baselinePath with
      | .error line => ⟨64, [], [line]⟩
      | .ok baseline =>
          match currentRows serde files run options paths with
          | .error refused => refused
          | .ok current =>
              let diff := computeDiff serde baseline current
              let write := if options.json then writeDiffJson else writeDiffText
              ⟨if diff.new.isEmpty then 0 else 1,
                write serde diff baselinePath baseline.length current.length, []⟩

end Rigor.Cli.Diff
