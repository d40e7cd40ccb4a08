import Mathlib.Data.List.Infix
import Rigor.Cli.Baseline.Filter
import Rigor.Cli.Check.Streams

/-!
# What `check` prints and how it exits

The end of `cmd_check`: the baseline filter, the rows of bad paths, and the exit status.
-/

namespace Rigor.Cli.Check

open Rigor.Rules Rigor.Rules.Suppression

variable {R : RegexEngine}

/-! ## Paths against the working directory -/

/-- One segment of `cleanpath_components`. -/
def cleanStep (abs : Bool) (out : List Text) (seg : Text) : List Text :=
  if seg = [] ∨ seg = ['.'] then out
  else if seg = ['.', '.'] then
    match out.getLast? with
    | some last => if last ≠ ['.', '.'] then out.dropLast else out ++ [['.', '.']]
    | none => if abs then out else out ++ [['.', '.']]
  else out ++ [seg]

def cleanpathComponents (path : Text) : Bool × List Text :=
  let abs : Bool := path.head? = some '/'
  (abs, (path.splitOn '/').foldl (cleanStep abs) [])

/-- The number of segments that two paths begin with in common. -/
def commonLength : List Text → List Text → Nat
  | d :: dest, b :: base => if d = b then commonLength dest base + 1 else 0
  | _, _ => 0

def relativePath (path : Text) (cwd : Option Text) : Text :=
  match cwd with
  | none => path
  | some cwd =>
      let (destAbs, dest) := cleanpathComponents path
      let (baseAbs, base) := cleanpathComponents cwd
      if destAbs ≠ baseAbs then path
      else
        let common := commonLength dest base
        let baseRest := base.drop common
        if ['.', '.'] ∈ baseRest then path
        else
          let parts := List.replicate baseRest.length ['.', '.'] ++ dest.drop common
          if parts = [] then ['.'] else ['/'].intercalate parts

/-! ## The baseline -/

inductive BaselineArg where
  | unset
  | path (path : Text)
  | off

/-- What `cmd_check` reads besides the settings of the analysis; `load` is `Baseline::load`. -/
structure CheckArgs (R : RegexEngine) where
  baselineArg : BaselineArg
  configBaseline : Option Text
  load : Text → Except Text (Baseline R)
  baselineStrict : Bool
  failOn : Severity
  cwd : Option Text
  targetRubyFailure : Option Text

def CheckArgs.resolveBaselinePath (args : CheckArgs R) : Option Text :=
  match args.baselineArg with
  | .off => none
  | .path path => some path
  | .unset => args.configBaseline

/-- A finding as the baseline keys it. -/
def CheckArgs.entry (args : CheckArgs R) (finding : Finding) : Entry :=
  (relativePath finding.path args.cwd, ⟨finding.diag.ruleId, finding.diag.message⟩)

/-- `apply_baseline` once the file is loaded. -/
def CheckArgs.surfaced (args : CheckArgs R) (baseline : Baseline R) (findings : List Finding) :
    List Finding :=
  if baseline.buckets.isEmpty then findings
  else (baseline.filter (findings.map args.entry)).1.filterMap fun i => findings[i]?

def CheckArgs.applyBaseline (args : CheckArgs R) (findings : List Finding) : List Finding :=
  match args.resolveBaselinePath with
  | none => findings
  | some path =>
      match args.load path with
      | .error _ => findings
      | .ok baseline => args.surfaced baseline findings

def CheckArgs.baselineStrictViolation (args : CheckArgs R) (findings : List Finding) : Bool :=
  match args.resolveBaselinePath with
  | none => false
  | some path =>
      match args.load path with
      | .error _ => false
      | .ok baseline =>
          if baseline.buckets.isEmpty then false
          else (baseline.audit (findings.map args.entry)).any fun row => row.status ≠ .within

/-! ## Bad paths -/

structure PathError where
  path : Text
  notFound : Bool

def PathError.finding (anyFiles : Bool) (error : PathError) : Finding :=
  let rule := if error.notFound then "path.not-found".toList else "path.not-ruby".toList
  let base := if error.notFound then "no such file or directory".toList
    else "not a Ruby file (expected `.rb` or a directory)".toList
  ⟨0, error.path, [], plainDiagnostic rule 0 0 (base ++ if anyFiles then " (skipped)".toList else [])
    (if anyFiles then .warning else .error) builtin⟩

/-- A row that leads the stream. -/
def isRunLevel (finding : Finding) : Bool :=
  "plugin_loader.".toList.isPrefixOf finding.diag.ruleId || "pre-eval.".toList.isPrefixOf finding.diag.ruleId

def prependPathErrors (findings : List Finding) (errors : List PathError) (anyFiles : Bool) : List Finding :=
  if errors = [] then findings
  else
    let leading := (findings.takeWhile isRunLevel).length
    findings.take leading ++ errors.map (PathError.finding anyFiles) ++ findings.drop leading

/-! ## The exit -/

def findingFailsRun (diag : Rules.Diagnostic) : Bool :=
  diag.severity = .error || diag.ruleId = internalErrorRule

/-- The findings that are printed, and the exit status. -/
structure Outcome where
  findings : List Finding
  exit : Nat

/-- What the analysis gives to the rest of `cmd_check`. -/
structure Analyzed where
  report : Report
  pathErrors : List PathError
  anyFiles : Bool

/-- The row of a `target_ruby:` that the parser rejects. -/
def configurationError (message : Text) : Finding :=
  ⟨0, rigorYml, [], plainDiagnostic "configuration-error".toList 0 0 message .error builtin⟩

/-- A rejected `target_ruby:` takes the place of the analysis. -/
def CheckArgs.input (args : CheckArgs R) (analyzed : Analyzed) : Analyzed :=
  match args.targetRubyFailure with
  | none => analyzed
  | some message =>
      { report := { findings := [configurationError message], hadIoError := false, stderr := [] }
        pathErrors := []
        anyFiles := false }

/-- The findings that `check` prints. -/
def CheckArgs.printed (args : CheckArgs R) (analyzed : Analyzed) : List Finding :=
  prependPathErrors (args.applyBaseline analyzed.report.findings) analyzed.pathErrors analyzed.anyFiles

/-- The run fails: by an error, by a crash, by `--fail-on` or by `--baseline-strict`. -/
def CheckArgs.fails (args : CheckArgs R) (analyzed : Analyzed) : Bool :=
  analyzed.report.hadIoError || (args.printed analyzed).any (fun finding => findingFailsRun finding.diag) ||
    (args.baselineStrict && args.baselineStrictViolation analyzed.report.findings) ||
    (args.printed analyzed).any fun finding => severityRank args.failOn ≤ severityRank finding.diag.severity

/-- The end of `cmd_check`. -/
def CheckArgs.check (args : CheckArgs R) (analyzed : Analyzed) : Outcome where
  findings := args.printed (args.input analyzed)
  exit := if args.fails (args.input analyzed) then 1 else 0

/-! ## What surfaces -/

variable {args : CheckArgs R} {baseline : Baseline R} {findings : List Finding} {finding : Finding}

theorem mem_surfaced_iff :
    finding ∈ args.surfaced baseline findings ↔
      finding ∈ findings ∧ baseline.silences (findings.map args.entry) (args.entry finding) = false := by
  unfold CheckArgs.surfaced
  by_cases empty : baseline.buckets = []
  · have quiet : baseline.silences (findings.map args.entry) (args.entry finding) = false := by
      rw [Baseline.silences, Baseline.claiming_eq_none_of_empty empty]
    rw [if_pos (List.isEmpty_iff.mpr empty), quiet]
    simp
  · rw [if_neg (by simpa using empty), List.mem_filterMap]
    constructor
    · rintro ⟨i, mem, found⟩
      rcases Baseline.mem_filter_iff.mp mem with ⟨entry, atEntry, loud⟩
      rw [List.getElem?_map, found] at atEntry
      cases atEntry
      exact ⟨List.mem_of_getElem? found, loud⟩
    · rintro ⟨mem, loud⟩
      rcases List.getElem?_of_mem mem with ⟨i, found⟩
      refine ⟨i, Baseline.mem_filter_iff.mpr ⟨args.entry finding, ?_, loud⟩, found⟩
      rw [List.getElem?_map, found]
      rfl

/-- The baseline that a run applies, if it has one that loads. -/
def CheckArgs.baseline? (args : CheckArgs R) : Option (Baseline R) :=
  args.resolveBaselinePath.bind fun path => (args.load path).toOption

theorem mem_applyBaseline_iff :
    finding ∈ args.applyBaseline findings ↔
      finding ∈ findings ∧ ∀ baseline, args.baseline? = some baseline →
        baseline.silences (findings.map args.entry) (args.entry finding) = false := by
  unfold CheckArgs.applyBaseline CheckArgs.baseline?
  cases args.resolveBaselinePath with
  | none => simp
  | some path =>
      cases loaded : args.load path with
      | error msg => simp [loaded, Except.toOption]
      | ok baseline =>
          simp only [Option.bind_some, loaded, Except.toOption]
          rw [mem_surfaced_iff]
          simp

theorem mem_prependPathErrors_iff {errors : List PathError} {anyFiles : Bool} :
    finding ∈ prependPathErrors findings errors anyFiles ↔
      finding ∈ findings ∨ finding ∈ errors.map (PathError.finding anyFiles) := by
  unfold prependPathErrors
  by_cases none : errors = []
  · simp [none]
  · have split := List.take_append_drop (findings.takeWhile isRunLevel).length findings
    rw [if_neg none]
    conv_rhs => rw [← split]
    simp only [List.mem_append]
    tauto

theorem mem_printed_iff {analyzed : Analyzed} :
    finding ∈ args.printed analyzed ↔
      finding ∈ args.applyBaseline analyzed.report.findings ∨
        finding ∈ analyzed.pathErrors.map (PathError.finding analyzed.anyFiles) :=
  mem_prependPathErrors_iff

end Rigor.Cli.Check
