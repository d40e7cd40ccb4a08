import Rigor.Cli.Check.Severity
import Rigor.Cli.Sidecar.Channel
import Rigor.Library.StableSort
import Rigor.Library.Stages
import Rigor.Rules.SuppressSet

/-!
# The analysis of a run

`analyze_files` of `main.rs`: the files are read, parsed and lowered by one pool of workers, their harvests
are merged at a barrier, and a second pool analyses each file against the merged index.  The outcomes of
both pools are replayed in input order.  The parser, the lowering, the index and the rules enter as an
`Engine`; `catch_unwind` makes the value of a call, or the message of its panic.

The workers of the second pool share one folder, which has a state: the typer asks it for the literal calls
that the Rust core does not fold.  A run without a folder is one whose folder answers none.
-/

namespace Rigor.Cli.Check

open Rigor.Library.StableSort Rigor.Library.Stages Rigor.Rules Rigor.Rules.Suppression Rigor.Rust

/-- An entry of the findings: its input order, its path, its source and the diagnostic. -/
structure Finding where
  order : Nat
  path : Text
  source : Text
  diag : Rules.Diagnostic

/-- What `catch_unwind` makes of a call. -/
abbrev Unwinding (α : Type) :=
  Except Text α

/-- A raw error of the parser. -/
structure SyntaxError where
  start : Nat
  stop : Nat
  message : Text

/-- A row of `conformance_findings` with the source that the index parsed. -/
structure ConformanceFinding where
  ruleId : Text
  file : Text
  source : Option Text
  startOffset : Nat
  endOffset : Nat
  message : Text

/-- The folder that the workers share, with its state. -/
abbrev Folder (R : Type) :=
  Resource Sidecar.FoldableCall (Option Types.Scalar) R

/-- What a worker computes with calls to the folder. -/
abbrev Folding (α : Type) :=
  Asking Sidecar.FoldableCall (Option Types.Scalar) α

/-- What the pipeline calls.  Every pass but one is a function of its arguments: a worker reads its own file, the
trees and the index are frozen before the workers of the second pool start, and each file has an interner of its
own.  The rules of the typer may also ask the folder, and go on with its answer. -/
structure Engine (Tree Ast Interner Harvest Project : Type) where
  /-- `std::fs::read_to_string`, with the text of its error. -/
  readToString : Text → Except Text Text
  /-- `parse_bounded`: the tree, or the message of the depth refusal. -/
  parseBounded : Text → Unwinding (Except Text Tree)
  errors : Tree → List SyntaxError
  commentLines : Tree → Text → List Comment
  lowerWithKey : Tree → Text → Unwinding Ast
  harvest : Ast → Harvest
  merge : List (Harvest × Ast) → Project
  newInterner : Interner
  analyzeWithSourceAndFolder :
    Ast → Interner → Project → Folding (Unwinding (List Rules.Diagnostic × Interner))
  shadowedRescueDiagnostics : Ast → Project → Text → Unwinding (List Rules.Diagnostic)
  voidValueUseDiagnostics : Ast → Interner → Project → Unwinding (List Rules.Diagnostic)
  filterDeadVersionGuardArms : List Rules.Diagnostic → Ast → Unwinding (List Rules.Diagnostic)
  suppressionMarkerDiagnostics : List Comment → List Rules.Diagnostic
  conformanceFindings : List ConformanceFinding
  /-- `Path::is_file`. -/
  isFile : Text → Bool
  /-- The `{:?}` format of a string. -/
  debug : Text → Text

/-- A row of the plugin loader. -/
structure PluginRow where
  ruleId : Text
  message : Text
  severity : Severity
  sourceFamily : Text

/-- What the pipeline reads of the configuration and of the plugin resolution. -/
structure Settings where
  disable : List Text
  profile : Profile
  severityOverrides : List (Text × ResolvedSeverity)
  bleedingEdgeOverrides : List (Text × ResolvedSeverity)
  preEval : List Text
  loadErrors : List PluginRow
  emitted : List PluginRow
  pluginStderr : List Text
  verb : Text
  conformanceScanActive : Bool

/-! ## Diagnostics of the pipeline itself -/

def builtin : Text :=
  "builtin".toList

/-- A diagnostic that no rule of the catalogue makes. -/
def plainDiagnostic (ruleId : Text) (start stop : Nat) (message : Text) (severity : Severity)
    (sourceFamily : Text) : Rules.Diagnostic where
  ruleId := ruleId
  startOffset := start
  endOffset := stop
  message := message
  severity := severity
  sourceFamily := sourceFamily
  receiverType := none
  methodName := none

/-- The `NO_RULE` sentinel. -/
def ruleless : Text :=
  []

def parseDiagnostics (errors : List SyntaxError) : List Rules.Diagnostic :=
  errors.map fun error =>
    plainDiagnostic ruleless error.start error.stop error.message .error builtin

def internalErrorFinding (message : Text) : Rules.Diagnostic :=
  plainDiagnostic internalErrorRule 0 0 message .info builtin

def internalErrorDiag (msg : Text) : Rules.Diagnostic :=
  internalErrorFinding ("internal error while analysing file: ".toList ++ msg)

def depthRefusalDiag (msg : Text) : Rules.Diagnostic :=
  internalErrorFinding msg

def internalPanicLine (verb path msg : Text) : Text :=
  "rigor ".toList ++ verb ++ ": internal panic on ".toList ++ path ++ ": ".toList ++ msg

def depthSkipLine (verb path msg : Text) : Text :=
  "rigor ".toList ++ verb ++ ": skipped ".toList ++ path ++ ": ".toList ++ msg

def cannotReadLine (verb path msg : Text) : Text :=
  "rigor ".toList ++ verb ++ ": cannot read ".toList ++ path ++ ": ".toList ++ msg

/-- The loop of `line_col`: the line and the start of the line at the clamped offset. -/
def lineColLoop (clamped : Nat) : List UInt8 → Nat → Nat × Nat → Nat × Nat
  | [], _, state => state
  | b :: bytes, i, (line, lineStart) =>
      if i ≥ clamped then (line, lineStart)
      else lineColLoop clamped bytes (i + 1) (if b = 10 then (line + 1, i + 1) else (line, lineStart))

def lineCol (source : Text) (byteOffset : Nat) : Nat × Nat :=
  if source = [] then (1, 1)
  else
    let clamped := min byteOffset (Text.len source)
    let (line, lineStart) := lineColLoop clamped (Text.bytes source) 0 (1, 0)
    (line, clamped - lineStart + 1)

def looksLikeErbTemplate (source : Text) : Bool :=
  Text.contains source "%>".toList

/-! ## The worklist -/

structure WorkItem where
  order : Nat
  path : Text
  analyze : Bool

/-- `usize::MAX`. -/
def usizeMax : Nat :=
  2 ^ 64 - 1

/-- The analysed files and, where the widened expansion is larger, the discovery-only ones.  `expand` is
the expansion of roots into files. -/
def worklist (expand : List Text → List Text) (configPaths files : List Text)
    (argvRoots : Option (List Text)) : List WorkItem :=
  let analyzed := files.zipIdx.map fun file => { order := file.2, path := file.1, analyze := true }
  match argvRoots with
  | none => analyzed
  | some roots =>
      let widened := expand (configPaths ++ roots).eraseDups
      if widened.length > (expand roots).length then
        analyzed ++ (widened.filter fun path => path ∉ files).map fun path =>
          { order := usizeMax, path := path, analyze := false }
      else analyzed

section Stages

variable {Tree Ast Interner Harvest Project : Type}

/-! ## Stage 1 -/

structure Prepared (Ast : Type) where
  order : Nat
  path : Text
  source : Text
  ast : Ast
  comments : List Comment

inductive Stage1 (Ast Harvest : Type) where
  | excluded
  | prepared (file : Prepared Ast) (harvest : Harvest)
  | discovery (ast : Ast) (harvest : Harvest)
  | ioError (path msg : Text)
  | parseErrors (order : Nat) (path source : Text) (diags : List Rules.Diagnostic)
  | panic (order : Nat) (path msg : Text)
  | tooDeep (order : Nat) (path msg : Text)

inductive Lowered (Ast : Type) where
  | parsed (ast : Ast) (comments : List Comment)
  | unparseable (diags : List Rules.Diagnostic)
  | tooDeep (msg : Text)

variable (E : Engine Tree Ast Interner Harvest Project) (settings : Settings)

/-- The closure that stage 1 guards against panics. -/
def lower (path source : Text) : Unwinding (Lowered Ast) := do
  match ← E.parseBounded source with
  | .error msg => return .tooDeep msg
  | .ok tree =>
      if E.errors tree ≠ [] then return .unparseable (parseDiagnostics (E.errors tree))
      else
        let comments := E.commentLines tree source
        return .parsed (← E.lowerWithKey tree path) comments

def stage1 (item : WorkItem) : Stage1 Ast Harvest :=
  match E.readToString item.path with
  | .error msg => if item.analyze then .ioError item.path msg else .excluded
  | .ok source =>
      if looksLikeErbTemplate source then .excluded
      else
        match lower E item.path source with
        | .ok (.unparseable diags) =>
            if item.analyze then .parseErrors item.order item.path source diags else .excluded
        | .ok (.parsed ast comments) =>
            if item.analyze then .prepared ⟨item.order, item.path, source, ast, comments⟩ (E.harvest ast)
            else .discovery ast (E.harvest ast)
        | .error msg => if item.analyze then .panic item.order item.path msg else .excluded
        | .ok (.tooDeep msg) => if item.analyze then .tooDeep item.order item.path msg else .excluded

/-- The state of the drain of stage 1; a harvest stands beside its tree. -/
structure Drained (Ast Harvest : Type) where
  prepared : List (Prepared Ast)
  harvests : List (Harvest × Ast)
  findings : List Finding
  hadIoError : Bool
  stderr : List Text

def Drained.push (drained : Drained Ast Harvest) : Stage1 Ast Harvest → Drained Ast Harvest
  | .excluded => drained
  | .prepared file harvest =>
      { drained with
        prepared := drained.prepared ++ [file]
        harvests := drained.harvests ++ [(harvest, file.ast)] }
  | .discovery ast harvest => { drained with harvests := drained.harvests ++ [(harvest, ast)] }
  | .parseErrors order path source diags =>
      { drained with
        findings := drained.findings ++ diags.map fun diag => ⟨order, path, source, diag⟩ }
  | .ioError path msg =>
      { drained with
        hadIoError := true
        stderr := drained.stderr ++ [cannotReadLine settings.verb path msg] }
  | .panic order path msg =>
      { drained with
        findings := drained.findings ++ [⟨order, path, [], internalErrorDiag msg⟩]
        stderr := drained.stderr ++ [internalPanicLine settings.verb path msg] }
  | .tooDeep order path msg =>
      { drained with
        findings := drained.findings ++ [⟨order, path, [], depthRefusalDiag msg⟩]
        stderr := drained.stderr ++ [depthSkipLine settings.verb path msg] }

/-- The drain of stage 1 and the merge of stage 2. -/
def drain (outcomes : List (Stage1 Ast Harvest)) :
    (Drained Ast Harvest × Project) × List (Prepared Ast) :=
  let drained := outcomes.foldl (Drained.push settings)
    { prepared := [], harvests := [], findings := [], hadIoError := false, stderr := settings.pluginStderr }
  ((drained, E.merge drained.harvests), drained.prepared)

/-! ## Stage 3 -/

structure Stage3 where
  findings : List Finding
  panic : Option (Text × Text)

/-- The gate of the void collector. -/
def Settings.voidRuleActive : Bool :=
  resolve "static.value-use.void".toList .warning settings.profile settings.severityOverrides
    settings.bleedingEdgeOverrides ≠ .off

/-- The passes after the rules of the typer. -/
def laterPasses (project : Project) (file : Prepared Ast)
    (analyzed : Unwinding (List Rules.Diagnostic × Interner)) : Unwinding (List Rules.Diagnostic) := do
  let (diags, interner) ← analyzed
  let diags := diags ++ (← E.shadowedRescueDiagnostics file.ast project file.source)
  let diags ←
    if settings.voidRuleActive then
      (diags ++ ·) <$> E.voidValueUseDiagnostics file.ast interner project
    else pure diags
  E.filterDeadVersionGuardArms diags file.ast

/-- The closure that stage 3 guards against panics. -/
def diagnose (project : Project) (file : Prepared Ast) : Folding (Unwinding (List Rules.Diagnostic)) :=
  (E.analyzeWithSourceAndFolder file.ast E.newInterner project).map (laterPasses E settings project file)

/-- The `disable:` filter and the severity stamp of one diagnostic. -/
def Settings.restamp (diag : Rules.Diagnostic) : Option Rules.Diagnostic :=
  if (SuppressSet.fromTokens settings.disable).suppresses diag.ruleId then none
  else if diag.ruleId = internalErrorRule then some diag
  else
    (resolve diag.ruleId (.ofSeverity diag.severity) settings.profile settings.severityOverrides
      settings.bleedingEdgeOverrides).severity?.map fun severity => { diag with severity := severity }

/-- What is reported of the diagnostics of a file. -/
def report (file : Prepared Ast) (diags : List Rules.Diagnostic) : List Finding :=
  let diags := diags ++ E.suppressionMarkerDiagnostics file.comments
  let withLines := diags.map fun diag => ((lineCol file.source diag.startOffset).1, diag)
  (filterSuppressed withLines file.comments).filterMap fun entry =>
    (settings.restamp entry.2).map fun diag => ⟨file.order, file.path, file.source, diag⟩

/-- What stage 3 makes of the guarded closure. -/
def Stage3.ofUnwinding (file : Prepared Ast) : Unwinding (List Rules.Diagnostic) → Stage3
  | .ok diags => { findings := report E settings file diags, panic := none }
  | .error msg =>
      { findings := [⟨file.order, file.path, [], internalErrorDiag msg⟩]
        panic := some (file.path, msg) }

def stage3 (project : Project) (file : Prepared Ast) : Folding Stage3 :=
  (diagnose E settings project file).map (Stage3.ofUnwinding E settings file)

/-! ## The rows of the run -/

def rigorYml : Text :=
  ".rigor.yml".toList

def PluginRow.finding (row : PluginRow) : Finding :=
  ⟨0, rigorYml, [], plainDiagnostic row.ruleId 0 0 row.message row.severity row.sourceFamily⟩

def preEvalFileNotFound : Text :=
  "pre-eval.file-not-found".toList

def preEvalMessage (debug : Text → Text) (entry : Text) : Text :=
  "pre_eval entry not found: ".toList ++ debug entry ++
    ". Pre-evaluation requires the file to exist on disk; remove the entry or create the file before re-running analysis.".toList

/-- The row of a `pre_eval:` entry, if it has one. -/
def preEvalRow (entry : Text) : Option Finding :=
  if entry.any (· ∈ ['*', '?', '[']) || E.isFile entry ||
      configDisablesPreEval settings.disable preEvalFileNotFound then none
  else
    (resolve preEvalFileNotFound .error settings.profile settings.severityOverrides
      settings.bleedingEdgeOverrides).severity?.map fun severity =>
        ⟨0, rigorYml, [],
          plainDiagnostic preEvalFileNotFound 0 0 (preEvalMessage E.debug entry) severity builtin⟩

def runRows : List Finding :=
  settings.loadErrors.map PluginRow.finding ++ settings.preEval.eraseDups.filterMap (preEvalRow E settings)

def emittedRows : List Finding :=
  (settings.emitted.filter fun row =>
    !configDisablesPluginRow settings.disable row.sourceFamily row.ruleId).map PluginRow.finding

/-- Bytes minus characters between the start of the offset's line and the offset. -/
def charColumnDelta (source : Text) (offset : Nat) : Nat :=
  match Text.splitAt offset source with
  | none => 0
  | some (before, _) =>
      let line := before.rtakeWhile (· ≠ '\n')
      Text.len line - line.length

def conformanceRow (f : ConformanceFinding) : Option Finding := do
  let severity ← (resolve f.ruleId .warning settings.profile settings.severityOverrides
    settings.bleedingEdgeOverrides).severity?
  let source ← f.source
  let delta := charColumnDelta source f.startOffset
  return ⟨usizeMax, f.file, source,
    plainDiagnostic f.ruleId (f.startOffset - delta) (f.endOffset - delta) f.message severity builtin⟩

def conformanceRows : List Finding :=
  if settings.verb = "check".toList ∧ settings.conformanceScanActive = true then
    E.conformanceFindings.filterMap (conformanceRow settings)
  else []

/-! ## The run -/

structure Report where
  findings : List Finding
  hadIoError : Bool
  stderr : List Text

/-- The drain of stage 3, the sort and the rows of the run. -/
def finish (drained : Drained Ast Harvest × Project) (outcomes : List Stage3) : Report where
  findings :=
    runRows E settings ++
      sortByKey Finding.order (drained.1.findings ++ outcomes.flatMap Stage3.findings) ++
      emittedRows settings ++ conformanceRows E settings
  hadIoError := drained.1.hadIoError
  stderr := drained.1.stderr ++ outcomes.filterMap fun outcome =>
    outcome.panic.map fun panic => internalPanicLine settings.verb panic.1 panic.2

/-- `analyze_files`: two pools and what the main thread does between and after them. -/
def analyzeFiles : Plan Sidecar.FoldableCall (Option Types.Scalar) WorkItem (Stage1 Ast Harvest) (Prepared Ast)
    Stage3 (Drained Ast Harvest × Project) Report where
  first item := .done (stage1 E item)
  barrier := drain E settings
  second drained := stage3 E settings drained.2
  last := finish E settings

end Stages

end Rigor.Cli.Check
