import Mathlib.Data.Char
import Mathlib.Data.List.Dedup
import Mathlib.Data.List.Lex
import Mathlib.Data.Prod.Lex
import Rigor.Cli.Baseline.Audit
import Rigor.Cli.Baseline.Yaml
import Rigor.Cli.Check.Verdict

/-!
# The `baseline` subcommands

`rigor baseline generate`, `regenerate`, `prune` and `drift` as steps of a workspace: the baseline file, and
what an analysis of the configured paths finds.  An analysis is any outcome of `baseline_analysis`; between
two commands the sources, the configuration and the permissions may change.
-/

namespace Rigor.Cli.Commands

open Baseline Rigor.Library.StableSort Rigor.Rust

/-! ## The workspace -/

/-- What `baseline_analysis` returns, and what its caller reads of the configuration. -/
structure Analysis where
  analyzed : Check.Analyzed
  scopeUndeclared : Bool
  /-- `cfg.baseline_path()`. -/
  configBaseline : Option Text
  /-- The configuration file that the note names. -/
  configLabel : Text

/-- The baseline file and the rest of the project. -/
structure Workspace where
  /-- The file, if it exists: its text, or the error of reading it. -/
  file : Option (Except Text Text)
  /-- The error of opening the file for writing. -/
  writeError : Option Text
  /-- `baseline_analysis`, or the status with which it refuses. -/
  analysis : Except Nat Analysis
  cwd : Option Text
  /-- `cfg.target_ruby_failure()`; `check` reads it and `baseline_analysis` does not. -/
  targetRubyFailure : Option Text

/-- The exit status and the lines of a command. -/
structure Shown where
  exit : Nat
  stdout : List Text := []
  stderr : List Text := []

/-- A finding as the baseline keys it. -/
def entryOf (cwd : Option Text) (finding : Check.Finding) : Entry :=
  (Check.relativePath finding.path cwd, ⟨finding.diag.ruleId, finding.diag.message⟩)

/-- `baseline_entries`. -/
def Analysis.entries (cwd : Option Text) (a : Analysis) : List Entry :=
  a.analyzed.report.findings.map (entryOf cwd)

section Subcommands

variable {R : RegexEngine} (U : UnicodeTables) (path : Text)

/-- `Baseline::load`. -/
def load (file : Option (Except Text Text)) : Except Text (Baseline R) :=
  match file with
  | none => .ok ⟨[]⟩
  | some (.error e) => .error (path ++ ": ".toList ++ e)
  | some (.ok text) => Baseline.parse U text path

/-- `load_baseline_strict`. -/
def loadBaselineStrict (file : Option (Except Text Text)) : Except Shown (Baseline R) :=
  if file.isNone then
    .error { exit := 64, stderr := ["rigor: baseline file not found: ".toList ++ path] }
  else
    match load U path file with
    | .ok baseline => .ok baseline
    | .error e => .error { exit := 64, stderr := ["rigor: baseline load failed: ".toList ++ e] }

/-! ## Writing -/

def modeStr : MatchMode → Text
  | .rule => "rule".toList
  | .message => "message".toList

/-- `MAX_UNBASELINEABLE_FILES`. -/
def maxUnbaselineableFiles : Nat := 10

/-- `report_unbaselineable`. -/
def reportUnbaselineable (cwd : Option Text) (noRulePaths : List Text) : List Text :=
  if noRulePaths = [] then []
  else
    let files := (sortByKey id (noRulePaths.map fun p => Check.relativePath p cwd)).dedup
    let listing : Text := if files = [] then [] else [':']
    ["rigor: ".toList ++ natText noRulePaths.length ++
        " diagnostic(s) have no rule (parse, path or internal errors) in ".toList ++ natText files.length ++
        " file(s) and cannot be baselined; fix them, or remove or exclude the files".toList ++ listing] ++
      (files.take maxUnbaselineableFiles).map ("  ".toList ++ ·) ++
      if maxUnbaselineableFiles < files.length then
        ["  ... and ".toList ++ natText (files.length - maxUnbaselineableFiles) ++ " more file(s)".toList]
      else []

/-- The note of a configuration that does not declare the file. -/
def undeclaredNote (a : Analysis) : List Text :=
  if a.configBaseline.isNone then
    ["rigor: note — `".toList ++ a.configLabel ++ "` does not declare `baseline:`; add `baseline: ".toList ++
      path ++ "` to activate the suppression.".toList]
  else []

/-- The paths of what has no rule: the bad roots, then the ruleless findings. -/
def Analysis.noRulePaths (a : Analysis) : List Text :=
  a.analyzed.pathErrors.map Check.PathError.path ++
    (a.analyzed.report.findings.filter fun finding => finding.diag.ruleId = noRule).map Check.Finding.path

/-- `write_baseline`. -/
def writeBaseline (ws : Workspace) (mode : MatchMode) (verb : Text) : Workspace × Shown :=
  match ws.analysis with
  | .error code => (ws, { exit := code })
  | .ok a =>
      let entries := a.entries ws.cwd
      let baseline : Baseline R := Baseline.fromDiagnostics entries mode
      match ws.writeError with
      | some e =>
          (ws, { exit := 1, stderr := ["rigor baseline: cannot write ".toList ++ path ++ ": ".toList ++ e] })
      | none =>
          let covered := entries.length -
            (a.analyzed.report.findings.filter fun finding => finding.diag.ruleId = noRule).length
          ({ ws with file := some (.ok (baseline.toYaml U)) },
            { exit := 0
              stderr :=
                ["rigor: ".toList ++ verb ++ [' '] ++ path ++ " (".toList ++ natText baseline.buckets.length ++
                    " bucket(s) covering ".toList ++ natText covered ++
                    " diagnostic(s); match-mode: ".toList ++ modeStr mode ++ [')']] ++
                  reportUnbaselineable ws.cwd a.noRulePaths ++ undeclaredNote path a })

/-- `baseline_generate`, after its options are parsed. -/
def baselineGenerate (R : RegexEngine) (ws : Workspace) (mode : MatchMode) (force : Bool) : Workspace × Shown :=
  if ws.file.isSome && !force then
    (ws, { exit := 64, stderr := ["rigor: ".toList ++ path ++
      " already exists. Re-run with --force to overwrite, or use `rigor baseline regenerate`.".toList] })
  else writeBaseline (R := R) U path ws mode "wrote baseline to".toList

/-- `baseline_regenerate`, after its options are parsed. -/
def baselineRegenerate (R : RegexEngine) (ws : Workspace) (mode : MatchMode) : Workspace × Shown :=
  writeBaseline (R := R) U path ws mode "regenerated baseline".toList

/-! ## Auditing -/

/-- The order of the rows in a report. -/
def rowKey (row : DriftRow R) : Text ×ₗ Text :=
  toLex (row.bucket.file, row.bucket.rule)

/-- `{}` of an integer. -/
def intText (n : Int) : Text :=
  if n < 0 then '-' :: natText n.natAbs else natText n.natAbs

def driftSectionHeader (status : DriftStatus) (n : Nat) : Text :=
  match status with
  | .over => "## Over threshold (".toList ++ natText n ++
      ") — bucket exceeded; check the regular diagnostic output.".toList
  | .cleared => "## Cleared (".toList ++ natText n ++ ") — `rigor baseline prune` can drop these.".toList
  | .reducible => "## Reducible (".toList ++ natText n ++
      ") — tightening opportunity; run `rigor baseline regenerate`.".toList
  | .within => "## Within threshold (".toList ++ natText n ++ [')']

/-- One row of the drift report. -/
def driftLine (row : DriftRow R) : Text :=
  let deltaStr := if 0 < row.delta then '+' :: intText row.delta else intText row.delta
  "  ".toList ++ row.bucket.file ++ "  [".toList ++ row.bucket.rule ++ "]  ".toList ++
    natText row.bucket.count ++ " → ".toList ++ natText row.actual ++ "  (Δ".toList ++ deltaStr ++ [')']

/-- One section of the drift report. -/
def driftSection (shown : List (DriftRow R)) (status : DriftStatus) : List Text :=
  let group := shown.filter fun row => row.status = status
  if group = [] then []
  else
    [driftSectionHeader status group.length] ++ (sortByKey rowKey group).map driftLine ++ [[]]

/-- The rows that the display filter shows. -/
def shownRows (only : Option DriftStatus) (rows : List (DriftRow R)) : List (DriftRow R) :=
  match only with
  | none => rows.filter fun row => row.delta ≠ 0
  | some status => rows.filter fun row => row.status = status

/-- The refusal of an audit without a declared scope. -/
def nothingToAnalyze (verb : Text) : Shown where
  exit := 64
  stderr := ["rigor: baseline ".toList ++ verb ++
    ": nothing to analyze — pass a path (e.g. `rigor baseline ".toList ++ verb ++
    " .`) or declare `paths:` in .rigor.yml".toList]

/-- What `drift` and `prune` audit: the baseline, the analysis, or the refusal. -/
def audited (R : RegexEngine) (ws : Workspace) (verb : Text) : Except Shown (Baseline R × Analysis) :=
  match loadBaselineStrict U path ws.file with
  | .error refused => .error refused
  | .ok baseline =>
      match ws.analysis with
      | .error code => .error { exit := code }
      | .ok a =>
          if a.scopeUndeclared && !baseline.buckets.isEmpty then .error (nothingToAnalyze verb)
          else .ok (baseline, a)

/-- `baseline_drift`, after its options are parsed. -/
def baselineDrift (R : RegexEngine) (ws : Workspace) (only : Option DriftStatus) : Workspace × Shown :=
  match audited U path R ws "drift".toList with
  | .error refused => (ws, refused)
  | .ok (baseline, a) =>
      let shown := shownRows only (baseline.audit (a.entries ws.cwd))
      if shown = [] then (ws, { exit := 0, stdout := ["No drift detected.".toList] })
      else
        (ws,
          { exit := 0
            stdout := ["Drift report against ".toList ++ path ++ [':'], []] ++
              [DriftStatus.over, .cleared, .reducible, .within].flatMap (driftSection shown) })

/-- `baseline_prune`, after its options are parsed. -/
def baselinePrune (R : RegexEngine) (ws : Workspace) (dryRun : Bool) : Workspace × Shown :=
  match audited U path R ws "prune".toList with
  | .error refused => (ws, refused)
  | .ok (baseline, a) =>
      let rows := baseline.audit (a.entries ws.cwd)
      let cleared := sortByKey rowKey (rows.filter fun row => row.status = .cleared)
      if cleared = [] then (ws, { exit := 0, stdout := ["No cleared buckets to prune.".toList] })
      else
        let listing := [natText cleared.length ++ " bucket(s) to prune from ".toList ++ path ++ [':']] ++
          cleared.map fun row => "  - ".toList ++ row.bucket.file ++ "  [".toList ++ row.bucket.rule ++
            "]  (was: ".toList ++ natText row.bucket.count ++ [')']
        if dryRun then (ws, { exit := 0, stdout := listing })
        else
          let pruned := baseline.without (cleared.map DriftRow.bucket)
          match ws.writeError with
          | some e =>
              (ws,
                { exit := 1
                  stdout := listing
                  stderr := ["rigor baseline prune: cannot write ".toList ++ path ++ ": ".toList ++ e] })
          | none =>
              ({ ws with file := some (.ok (pruned.toYaml U)) },
                { exit := 0
                  stdout := listing
                  stderr := ["rigor: pruned ".toList ++ natText cleared.length ++
                    " bucket(s); baseline now has ".toList ++ natText pruned.buckets.length ++
                    " entries.".toList] })

/-! ## Runs -/

inductive Command where
  | generate (mode : MatchMode) (force : Bool)
  | regenerate (mode : MatchMode)
  | prune (dryRun : Bool)
  | drift (only : Option DriftStatus)

def Command.run (R : RegexEngine) (ws : Workspace) : Command → Workspace × Shown
  | .generate mode force => baselineGenerate U path R ws mode force
  | .regenerate mode => baselineRegenerate U path R ws mode
  | .prune dryRun => baselinePrune U path R ws dryRun
  | .drift only => baselineDrift U path R ws only

/-- A command, or a change of anything but the baseline file. -/
inductive Event where
  | command (call : Command)
  | edit (writeError : Option Text) (analysis : Except Nat Analysis) (targetRubyFailure : Option Text)

def Event.apply (R : RegexEngine) (ws : Workspace) : Event → Workspace
  | .command call => (call.run U path R ws).1
  | .edit writeError analysis targetRubyFailure =>
      { ws with writeError := writeError, analysis := analysis, targetRubyFailure := targetRubyFailure }

/-- What `check` reads of the workspace, with the flags that matter here. -/
def Workspace.checkArgs (R : RegexEngine) (ws : Workspace) (strict : Bool) (failOn : Rules.Severity) :
    Check.CheckArgs R where
  baselineArg := .path path
  configBaseline := none
  load := fun _ => load U path ws.file
  baselineStrict := strict
  failOn := failOn
  cwd := ws.cwd
  targetRubyFailure := ws.targetRubyFailure

end Subcommands

end Rigor.Cli.Commands
