import Mathlib.Data.List.Forall2
import Rigor.Cli.Check.Failures

/-!
# Stricter settings

With a stricter profile and fewer `disable:` tokens a run prints no less: every finding of the laxer run is
there, at the same place of the same file and at no lower severity.  The baseline keeps this, since it
silences a group of findings by their number.
-/

namespace Rigor.Cli.Check

open Rigor.Library.Runs Rigor.Library.Stages Rigor.Rules Rigor.Rules.Suppression

variable {Tree Ast Interner Harvest Project S S' : Type} {R : RegexEngine}
  {answers : Sidecar.FoldableCall → Option Types.Scalar}

/-- The same finding, not lower. -/
def Raised (low high : Finding) : Prop :=
  ∃ severity, high = { low with diag := { low.diag with severity := severity } } ∧
    severityRank low.diag.severity ≤ severityRank severity

theorem Raised.refl (finding : Finding) : Raised finding finding :=
  ⟨finding.diag.severity, rfl, Nat.le_refl _⟩

/-- The second stream has all of the first, raised. -/
abbrev Covers (low high : List Finding) : Prop :=
  List.SublistForall₂ Raised low high

theorem covers_refl (findings : List Finding) : Covers findings findings := by
  rw [Covers, List.sublistForall₂_iff]
  exact ⟨findings, List.forall₂_same.mpr fun _ _ => Raised.refl _, List.Sublist.refl _⟩

theorem covers_append {low low' high high' : List Finding} (first : Covers low high)
    (second : Covers low' high') : Covers (low ++ low') (high ++ high') := by
  rw [Covers, List.sublistForall₂_iff] at first second ⊢
  rcases first with ⟨middle, raised, sub⟩
  rcases second with ⟨middle', raised', sub'⟩
  exact ⟨middle ++ middle', List.rel_append raised raised', sub.append sub'⟩

theorem covers_flatMap {α : Type} {low high : α → List Finding} (covers : ∀ a, Covers (low a) (high a))
    (items : List α) : Covers (items.flatMap low) (items.flatMap high) := by
  induction items with
  | nil => exact covers_refl []
  | cons a items ih => exact covers_append (covers a) ih

theorem covers_filterMap {α : Type} {low high : α → Option Finding}
    (raises : ∀ a l, low a = some l → ∃ h, high a = some h ∧ Raised l h) (items : List α) :
    Covers (items.filterMap low) (items.filterMap high) := by
  induction items with
  | nil => exact covers_refl []
  | cons a items ih =>
      cases kept : low a with
      | some l =>
          rcases raises a l kept with ⟨h, found, raised⟩
          rw [List.filterMap_cons_some kept, List.filterMap_cons_some found]
          exact .cons raised ih
      | none =>
          rw [List.filterMap_cons_none kept]
          cases found : high a with
          | none => rw [List.filterMap_cons_none found]; exact ih
          | some h => rw [List.filterMap_cons_some found]; exact .cons_right ih

/-- The two settings differ in the profile and in the `disable:` list, and the second are the stricter. -/
structure Stricter (lax strict : Settings) : Prop where
  level : lax.profile.level ≤ strict.profile.level
  disable : strict.disable ⊆ lax.disable
  others : strict = { lax with profile := strict.profile, disable := strict.disable }

namespace Stricter

variable {lax strict : Settings} (stricter : Stricter lax strict)

include stricter

theorem severityOverrides : strict.severityOverrides = lax.severityOverrides := by
  rw [stricter.others]

theorem bleedingEdgeOverrides : strict.bleedingEdgeOverrides = lax.bleedingEdgeOverrides := by
  rw [stricter.others]

theorem preEval : strict.preEval = lax.preEval := by
  rw [stricter.others]

theorem loadErrors : strict.loadErrors = lax.loadErrors := by
  rw [stricter.others]

theorem emitted : strict.emitted = lax.emitted := by
  rw [stricter.others]

theorem verb : strict.verb = lax.verb := by
  rw [stricter.others]

theorem conformanceScanActive : strict.conformanceScanActive = lax.conformanceScanActive := by
  rw [stricter.others]

/-- What the laxer settings resolve to a severity, the stricter resolve to none lower. -/
theorem resolve {rule : Text} {authored : ResolvedSeverity} {severity : Severity}
    (kept : (Check.resolve rule authored lax.profile lax.severityOverrides
      lax.bleedingEdgeOverrides).severity? = some severity) :
    ∃ severity', (Check.resolve rule authored strict.profile strict.severityOverrides
      strict.bleedingEdgeOverrides).severity? = some severity' ∧
        severityRank severity ≤ severityRank severity' := by
  rw [stricter.severityOverrides, stricter.bleedingEdgeOverrides]
  exact exists_severity?_of_rank_le (rank_resolve_le stricter.level rule authored _ _) kept

theorem voidRuleActive : strict.voidRuleActive = lax.voidRuleActive := by
  rw [Settings.voidRuleActive, Settings.voidRuleActive, stricter.severityOverrides,
    stricter.bleedingEdgeOverrides, Check.resolve, Check.resolve, lookup_valueUseVoid, lookup_valueUseVoid]

variable (E : Engine Tree Ast Interner Harvest Project)

theorem restamp {diag low : Rules.Diagnostic} (kept : lax.restamp diag = some low) :
    ∃ severity, strict.restamp diag = some { low with severity := severity } ∧
      severityRank low.severity ≤ severityRank severity := by
  unfold Settings.restamp at kept ⊢
  by_cases disabled : (SuppressSet.fromTokens lax.disable).suppresses diag.ruleId = true
  · rw [if_pos disabled] at kept
    cases kept
  · have enabled : ¬(SuppressSet.fromTokens strict.disable).suppresses diag.ruleId = true := fun suppressed =>
      disabled (SuppressSet.fromTokens_suppresses_mono stricter.disable suppressed)
    rw [if_neg disabled] at kept
    rw [if_neg enabled]
    by_cases sentinel : diag.ruleId = internalErrorRule
    · rw [if_pos sentinel] at kept ⊢
      cases kept
      exact ⟨diag.severity, rfl, Nat.le_refl _⟩
    · rw [if_neg sentinel] at kept ⊢
      rcases Option.map_eq_some_iff.mp kept with ⟨severity, resolved, rfl⟩
      rcases stricter.resolve resolved with ⟨severity', resolved', le⟩
      exact ⟨severity', by rw [resolved']; rfl, le⟩

theorem covers_report (file : Prepared Ast) (diags : List Rules.Diagnostic) :
    Covers (report E lax file diags) (report E strict file diags) := by
  apply covers_filterMap
  intro entry low kept
  rcases Option.map_eq_some_iff.mp kept with ⟨diag, stamped, rfl⟩
  rcases stricter.restamp stamped with ⟨severity, stamped', le⟩
  exact ⟨_, by rw [stamped']; rfl, severity, rfl, le⟩

theorem diagnose_eq (project : Project) (file : Prepared Ast) :
    diagnose E strict project file = diagnose E lax project file := by
  unfold diagnose laterPasses
  rw [stricter.voidRuleActive]

theorem covers_stage3 (project : Project) (file : Prepared Ast) :
    Covers ((stage3 E lax project file).run answers).findings
      ((stage3 E strict project file).run answers).findings := by
  rw [run_stage3, run_stage3, stricter.diagnose_eq]
  cases (diagnose E lax project file).run answers with
  | error msg => exact covers_refl _
  | ok diags => exact stricter.covers_report E file diags

theorem covers_itemFindings (project : Project) (item : WorkItem) :
    Covers (itemFindings E answers lax project item) (itemFindings E answers strict project item) := by
  apply covers_append (covers_refl _)
  cases (stage1 E item).prepared? with
  | none => exact covers_refl _
  | some file => exact stricter.covers_stage3 E project file

theorem covers_runRows : Covers (runRows E lax) (runRows E strict) := by
  unfold runRows
  rw [stricter.loadErrors, stricter.preEval]
  apply covers_append (covers_refl _)
  apply covers_filterMap
  intro entry low kept
  unfold preEvalRow at kept ⊢
  by_cases quiet : (entry.any (· ∈ ['*', '?', '[']) || E.isFile entry ||
      configDisablesPreEval lax.disable preEvalFileNotFound) = true
  · rw [if_pos quiet] at kept
    cases kept
  · rw [if_neg quiet] at kept
    have loud : ¬(entry.any (· ∈ ['*', '?', '[']) || E.isFile entry ||
        configDisablesPreEval strict.disable preEvalFileNotFound) = true := by
      intro silent
      rw [Bool.or_eq_true] at silent quiet
      rcases silent with early | disabled
      · exact quiet (Or.inl early)
      · exact quiet (Or.inr (configDisablesPreEval_mono stricter.disable disabled))
    rw [if_neg loud]
    rcases Option.map_eq_some_iff.mp kept with ⟨severity, resolved, rfl⟩
    rcases stricter.resolve resolved with ⟨severity', resolved', le⟩
    exact ⟨_, by rw [resolved']; rfl, severity', rfl, le⟩

theorem covers_emittedRows : Covers (emittedRows lax) (emittedRows strict) := by
  unfold emittedRows
  rw [stricter.emitted, ← List.filterMap_eq_map, List.filterMap_filter, List.filterMap_filter]
  apply covers_filterMap
  intro row low kept
  by_cases disabled : configDisablesPluginRow strict.disable row.sourceFamily row.ruleId = true
  · have dropped := configDisablesPluginRow_mono stricter.disable disabled
    simp [dropped] at kept
  · refine ⟨low, ?_, Raised.refl low⟩
    rw [Bool.not_eq_true] at disabled
    simp only [disabled, Bool.not_false, if_true]
    split at kept
    · exact kept
    · cases kept

theorem covers_conformanceRows : Covers (conformanceRows E lax) (conformanceRows E strict) := by
  unfold conformanceRows
  rw [stricter.verb, stricter.conformanceScanActive]
  split
  · apply covers_filterMap
    intro f low kept
    unfold conformanceRow at kept ⊢
    rcases Option.bind_eq_some_iff.mp kept with ⟨severity, resolved, rest⟩
    rcases Option.bind_eq_some_iff.mp rest with ⟨source, read, made⟩
    rcases stricter.resolve resolved with ⟨severity', resolved', le⟩
    cases made
    exact ⟨_, by rw [resolved', read]; rfl, severity', rfl, le⟩
  · exact covers_refl _

theorem covers_streamed (items : List WorkItem) :
    Covers (streamed E answers lax items).findings (streamed E answers strict items).findings :=
  covers_append (covers_append (covers_append (stricter.covers_runRows E)
    (covers_flatMap (stricter.covers_itemFindings E _) items)) stricter.covers_emittedRows)
      (stricter.covers_conformanceRows E)

end Stricter

/-! ## Through the baseline -/

section Through

variable {args : CheckArgs R} {low high : List Finding} {finding : Finding}

theorem entry_of_raised {finding' : Finding} (raised : Raised finding finding') :
    args.entry finding' = args.entry finding := by
  rcases raised with ⟨severity, rfl, -⟩
  rfl

/-- The entries of the laxer stream are among those of the stricter. -/
theorem entries_sublist (args : CheckArgs R) (covers : Covers low high) :
    (low.map args.entry).Sublist (high.map args.entry) := by
  rw [Covers, List.sublistForall₂_iff] at covers
  rcases covers with ⟨middle, raised, sub⟩
  have same : low.map args.entry = middle.map args.entry := by
    clear sub
    induction raised with
    | nil => rfl
    | cons head _ ih => rw [List.map_cons, List.map_cons, ih, entry_of_raised head]
  rw [same]
  exact sub.map args.entry

/-- Fewer findings are silenced at least as well. -/
theorem silences_mono {baseline : Baseline R} {fewer entries : List Entry} (sub : fewer.Sublist entries)
    {entry : Entry} (quiet : baseline.silences entries entry = true) :
    baseline.silences fewer entry = true := by
  unfold Baseline.silences at quiet ⊢
  cases claims : baseline.claiming entry with
  | none => simp [claims] at quiet
  | some bucket =>
      rw [claims] at quiet
      exact decide_eq_true (sub.countP_le.trans (of_decide_eq_true quiet))

theorem exists_of_mem_covered (covers : Covers low high) (mem : finding ∈ low) :
    ∃ finding' ∈ high, Raised finding finding' := by
  rw [Covers, List.sublistForall₂_iff] at covers
  rcases covers with ⟨middle, raised, sub⟩
  rcases List.forall₂_iff_get.mp raised with ⟨length, along⟩
  rcases List.mem_iff_get.mp mem with ⟨i, rfl⟩
  exact ⟨_, sub.subset (List.get_mem middle ⟨i, length ▸ i.isLt⟩), along i i.isLt (length ▸ i.isLt)⟩

theorem exists_of_mem_applyBaseline (covers : Covers low high) (mem : finding ∈ args.applyBaseline low) :
    ∃ finding' ∈ args.applyBaseline high, Raised finding finding' := by
  rw [mem_applyBaseline_iff] at mem
  rcases exists_of_mem_covered covers mem.1 with ⟨finding', mem', raised⟩
  refine ⟨finding', mem_applyBaseline_iff.mpr ⟨mem', ?_⟩, raised⟩
  intro baseline applied
  by_contra silenced
  rw [Bool.not_eq_false, entry_of_raised raised] at silenced
  have quiet := silences_mono (entries_sublist args covers) silenced
  exact absurd (mem.2 baseline applied) (by simp [quiet])

theorem fails_of_raised {finding' : Finding} (raised : Raised finding finding')
    (bad : findingFailsRun finding.diag = true) : findingFailsRun finding'.diag = true := by
  rcases raised with ⟨severity, rfl, le⟩
  unfold findingFailsRun at bad ⊢
  rw [Bool.or_eq_true, decide_eq_true_eq, decide_eq_true_eq] at bad ⊢
  rcases bad with error | sentinel
  · left
    rw [error] at le
    cases severity with
    | error => rfl
    | warning => exact absurd le (by simp [severityRank])
    | info => exact absurd le (by simp [severityRank])
  · exact Or.inr sentinel

/-- What is printed of the laxer stream is printed, raised, of the stricter. -/
theorem exists_of_mem_printed {pathErrors : List PathError} {anyFiles unread unread' : Bool}
    {stderr stderr' : List Text} (covers : Covers low high)
    (mem : finding ∈ args.printed ⟨⟨low, unread, stderr⟩, pathErrors, anyFiles⟩) :
    ∃ finding' ∈ args.printed ⟨⟨high, unread', stderr'⟩, pathErrors, anyFiles⟩, Raised finding finding' := by
  rw [mem_printed_iff] at mem
  rcases mem with surfaced | bad
  · rcases exists_of_mem_applyBaseline covers surfaced with ⟨finding', mem', raised⟩
    exact ⟨finding', mem_printed_iff.mpr (Or.inl mem'), raised⟩
  · exact ⟨finding, mem_printed_iff.mpr (Or.inr bad), Raised.refl finding⟩

theorem fails_mono {pathErrors : List PathError} {anyFiles unread : Bool} {stderr stderr' : List Text}
    (covers : Covers low high) (audit : args.baselineStrict = false)
    (bad : args.fails ⟨⟨low, unread, stderr⟩, pathErrors, anyFiles⟩ = true) :
    args.fails ⟨⟨high, unread, stderr'⟩, pathErrors, anyFiles⟩ = true := by
  unfold CheckArgs.fails at bad ⊢
  simp only [audit, Bool.false_and, Bool.or_false, Bool.or_eq_true, List.any_eq_true] at bad ⊢
  rcases bad with (unread | ⟨finding, mem, bad⟩) | ⟨finding, mem, bad⟩
  · exact Or.inl (Or.inl unread)
  · rcases exists_of_mem_printed covers mem with ⟨finding', mem', raised⟩
    exact Or.inl (Or.inr ⟨finding', mem', fails_of_raised raised bad⟩)
  · rcases exists_of_mem_printed covers mem with ⟨finding', mem', severity, rfl, le⟩
    exact Or.inr ⟨_, mem', decide_eq_true ((of_decide_eq_true bad).trans le)⟩

end Through

/-- A run with a stricter profile and fewer `disable:` tokens prints every finding of the laxer run, at no
lower severity, and fails if that run fails, unless `--baseline-strict` audits the numbers.  The folders of the
two runs answer a call alike. -/
theorem check_mono_of_stricter (E : Engine Tree Ast Interner Harvest Project) (lax strict : Settings)
    (stricter : Stricter lax strict) (folder : Folder S) (folder' : Folder S') (steady : folder.Steady answers)
    (steady' : folder'.Steady answers) (expand : List Text → List Text) (configPaths files : List Text)
    (argvRoots : Option (List Text)) (events events' : List Event) (report report' : Report)
    (run : ((analyzeFiles E lax).system folder (worklist expand configPaths files argvRoots)).Run
      (Plan.initial folder (worklist expand configPaths files argvRoots)) events (.finished report))
    (run' : ((analyzeFiles E strict).system folder' (worklist expand configPaths files argvRoots)).Run
      (Plan.initial folder' (worklist expand configPaths files argvRoots)) events' (.finished report'))
    (args : CheckArgs R) (pathErrors : List PathError) (anyFiles : Bool) :
    (∀ finding ∈ (args.check ⟨report, pathErrors, anyFiles⟩).findings,
        ∃ finding' ∈ (args.check ⟨report', pathErrors, anyFiles⟩).findings, Raised finding finding') ∧
      (args.baselineStrict = false → (args.check ⟨report, pathErrors, anyFiles⟩).exit = 1 →
        (args.check ⟨report', pathErrors, anyFiles⟩).exit = 1) := by
  have ordered := ordered_worklist expand configPaths files argvRoots
  rw [report_of_run E lax steady ordered run, report_of_run E strict steady' ordered run']
  have covers : Covers (streamed E answers lax (worklist expand configPaths files argvRoots)).findings
      (streamed E answers strict (worklist expand configPaths files argvRoots)).findings :=
    stricter.covers_streamed E (worklist expand configPaths files argvRoots)
  rw [exit_eq_one_iff, exit_eq_one_iff]
  simp only [CheckArgs.check]
  cases rejected : args.targetRubyFailure with
  | some message =>
      simp only [CheckArgs.input, rejected]
      exact ⟨fun finding mem => ⟨finding, mem, Raised.refl finding⟩, fun _ bad => bad⟩
  | none =>
      simp only [CheckArgs.input, rejected]
      exact ⟨fun finding mem => exists_of_mem_printed covers mem, fun audit bad => fails_mono covers audit bad⟩

theorem check_mono_of_stricter_sample : (sampleArgs.check ⟨sampleReport .strict, [], true⟩).exit = 1 := by
  rcases exists_run sampleEngine (sampleSettings .lenient) steady_sampleFolder
    (ordered_worklist id [] sampleFiles none) with ⟨events, run⟩
  rcases exists_run sampleEngine (sampleSettings .strict) steady_sampleFolder
    (ordered_worklist id [] sampleFiles none) with ⟨events', run'⟩
  have stricter : Stricter (sampleSettings .lenient) (sampleSettings .strict) :=
    ⟨Nat.zero_le _, List.Subset.refl _, rfl⟩
  have bad : (sampleArgs.check ⟨sampleReport .lenient, [], true⟩).exit = 1 := by
    decide +kernel
  exact (check_mono_of_stricter sampleEngine _ _ stricter sampleFolder sampleFolder steady_sampleFolder
    steady_sampleFolder id [] sampleFiles none events events' _ _ run run' sampleArgs [] true).2 rfl bad

end Rigor.Cli.Check
