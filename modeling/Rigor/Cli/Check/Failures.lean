import Rigor.Cli.Baseline.Escape
import Rigor.Cli.Check.Verdict

/-!
# Failures that no setting silences

A file that cannot be read, that does not parse, that is nested too deep or whose analysis panics fails the
run, whatever the settings, the comments of the file, the order of the workers and the answers of the folder.
Only a baseline row written for the crash itself takes its finding away.  A file with the closing mark of a
template is no Ruby file, and is passed over.
-/

namespace Rigor.Cli.Check

open Rigor.Library.Runs Rigor.Library.StableSort Rigor.Library.Stages Rigor.Rules Rigor.Rules.Suppression

variable {Tree Ast Interner Harvest Project S : Type} {R : RegexEngine}

section Causes

variable (E : Engine Tree Ast Interner Harvest Project)
  (may : Sidecar.FoldableCall → Option Types.Scalar → Prop) (settings : Settings)

/-- The file cannot be read. -/
def Unreadable (path : Text) : Prop :=
  ∃ msg, E.readToString path = .error msg

/-- The file is read and is no template. -/
def IsRuby (path source : Text) : Prop :=
  E.readToString path = .ok source ∧ looksLikeErbTemplate source = false

/-- The parser reports errors. -/
def Broken (path : Text) : Prop :=
  ∃ source tree, IsRuby E path source ∧ E.parseBounded source = .ok (.ok tree) ∧ E.errors tree ≠ []

/-- The parser refuses the depth of the file, a stage panics on it, or its rules do, whatever the folder may
answer. -/
def Crashed (project : Project) (item : WorkItem) : Prop :=
  ∃ source, IsRuby E item.path source ∧
    ((∃ msg, E.parseBounded source = .ok (.error msg)) ∨ (∃ msg, lower E item.path source = .error msg) ∨
      ∃ ast comments, lower E item.path source = .ok (.parsed ast comments) ∧
        ∀ made, (diagnose E settings project ⟨item.order, item.path, source, ast, comments⟩).Yields may made →
          ∃ msg, made = .error msg)

variable {E} {may} {settings} {items : List WorkItem} {item : WorkItem} {report : Report}

/-- The outcomes of the second pool for the files of the first one. -/
def Analysed (E : Engine Tree Ast Interner Harvest Project)
    (may : Sidecar.FoldableCall → Option Types.Scalar → Prop) (settings : Settings) (items : List WorkItem)
    (outcomes : List Stage3) : Prop :=
  List.Forall₂ (fun file outcome => (stage3 E settings (projectOf E items) file).Yields may outcome)
    (items.filterMap fun item => (stage1 E item).prepared?) outcomes

/-- What the report of a run is made of, whatever the folder answered. -/
theorem exists_of_outcome (outcome : (analyzeFiles E settings).Outcome may items report) :
    ∃ outcomes, Analysed E may settings items outcomes ∧
      report.hadIoError = (items.any fun item => (stage1 E item).isIoError) ∧
      report.findings = runRows E settings ++
        sortByKey Finding.order (items.flatMap (fun item => (stage1 E item).findings) ++
          outcomes.flatMap Stage3.findings) ++ emittedRows settings ++ conformanceRows E settings := by
  rcases outcome with ⟨results, outcomes, firsts, seconds, rfl⟩
  have drained : (analyzeFiles E settings).barrier results =
      (analyzeFiles E settings).met (fun _ => none) items := by
    have results_eq : results = items.map (stage1 E) := by
      rw [← List.forall₂_eq_eq_eq, List.forall₂_map_right_iff]
      exact firsts.flip.imp fun _ _ yields => Asking.yields_done_iff.mp yields
    rw [results_eq]
    rfl
  rw [drained, met_analyzeFiles] at seconds ⊢
  exact ⟨outcomes, seconds, rfl, rfl⟩

/-- What stage 1 makes of an analysed file once it is lowered. -/
def outcomeOfLowered (E : Engine Tree Ast Interner Harvest Project) (item : WorkItem) (source : Text) :
    Unwinding (Lowered Ast) → Stage1 Ast Harvest
  | .ok (.unparseable diags) => .parseErrors item.order item.path source diags
  | .ok (.parsed ast comments) => .prepared ⟨item.order, item.path, source, ast, comments⟩ (E.harvest ast)
  | .error msg => .panic item.order item.path msg
  | .ok (.tooDeep msg) => .tooDeep item.order item.path msg

theorem stage1_of_isRuby {source : Text} (ruby : IsRuby E item.path source) (analyze : item.analyze = true) :
    stage1 E item = outcomeOfLowered E item source (lower E item.path source) := by
  unfold stage1
  rw [ruby.1]
  simp only [ruby.2, Bool.false_eq_true, if_false, analyze, if_true]
  rcases lower E item.path source with msg | lowered
  · rfl
  · cases lowered <;> rfl

theorem mem_report_of_stage1 (outcome : (analyzeFiles E settings).Outcome may items report) (inside : item ∈ items)
    {finding : Finding} (mem : finding ∈ (stage1 E item).findings) : finding ∈ report.findings := by
  rcases exists_of_outcome outcome with ⟨outcomes, -, -, findings⟩
  have early : finding ∈ items.flatMap fun item => (stage1 E item).findings :=
    List.mem_flatMap.mpr ⟨item, inside, mem⟩
  rw [findings]
  simp only [List.mem_append, (sortByKey_perm Finding.order _).mem_iff]
  exact Or.inl (Or.inl (Or.inr (Or.inl early)))

/-- What the first pool makes of a lowered file is reported. -/
theorem mem_report_of_lowered (outcome : (analyzeFiles E settings).Outcome may items report) (inside : item ∈ items)
    (analyze : item.analyze = true) {source : Text} (ruby : IsRuby E item.path source)
    {lowered : Unwinding (Lowered Ast)} (lowers : lower E item.path source = lowered) {finding : Finding}
    (mem : finding ∈ (outcomeOfLowered E item source lowered).findings) : finding ∈ report.findings := by
  apply mem_report_of_stage1 outcome inside
  rw [stage1_of_isRuby ruby analyze, lowers]
  exact mem

/-- A prepared file comes to some result of its closure, whose findings are reported. -/
theorem exists_made_of_prepared (outcome : (analyzeFiles E settings).Outcome may items report)
    (inside : item ∈ items) {file : Prepared Ast} (prepared : (stage1 E item).prepared? = some file) :
    ∃ made, (diagnose E settings (projectOf E items) file).Yields may made ∧
      ∀ finding ∈ (Stage3.ofUnwinding E settings file made).findings, finding ∈ report.findings := by
  rcases exists_of_outcome outcome with ⟨outcomes, analysed, -, findings⟩
  have among : file ∈ items.filterMap fun item => (stage1 E item).prepared? :=
    List.mem_filterMap.mpr ⟨item, inside, prepared⟩
  rcases List.mem_iff_get.mp among with ⟨i, rfl⟩
  rcases List.forall₂_iff_get.mp analysed with ⟨length, along⟩
  rcases Asking.yields_map_iff.mp (along i i.isLt (length ▸ i.isLt)) with ⟨made, yields, same⟩
  refine ⟨made, yields, fun finding mem => ?_⟩
  have late : finding ∈ outcomes.flatMap Stage3.findings :=
    List.mem_flatMap.mpr ⟨_, List.get_mem outcomes ⟨i, length ▸ i.isLt⟩, same ▸ mem⟩
  rw [findings]
  simp only [List.mem_append, (sortByKey_perm Finding.order _).mem_iff]
  exact Or.inl (Or.inl (Or.inr (Or.inr late)))

theorem hadIoError_of_unreadable (outcome : (analyzeFiles E settings).Outcome may items report)
    (inside : item ∈ items) (analyze : item.analyze = true) (unreadable : Unreadable E item.path) :
    report.hadIoError = true := by
  rcases exists_of_outcome outcome with ⟨outcomes, -, hadIoError, -⟩
  rcases unreadable with ⟨msg, read⟩
  rw [hadIoError, List.any_eq_true]
  exact ⟨item, inside, by simp [stage1, read, analyze, Stage1.isIoError]⟩

/-- A broken file reports errors that have no rule. -/
theorem exists_finding_of_broken (outcome : (analyzeFiles E settings).Outcome may items report)
    (inside : item ∈ items) (analyze : item.analyze = true) (broken : Broken E item.path) :
    ∃ finding ∈ report.findings, finding.path = item.path ∧
      finding.diag.ruleId = ruleless ∧ finding.diag.severity = .error := by
  rcases broken with ⟨source, tree, ruby, parsed, errors⟩
  have lowered : lower E item.path source = .ok (.unparseable (parseDiagnostics (E.errors tree))) := by
    rw [lower, parsed]
    change (if E.errors tree ≠ [] then _ else _) = _
    rw [if_pos errors]
    rfl
  rcases List.exists_cons_of_ne_nil errors with ⟨first, others, split⟩
  rw [split] at lowered
  exact ⟨⟨item.order, item.path, source,
      plainDiagnostic ruleless first.start first.stop first.message .error builtin⟩,
    mem_report_of_lowered outcome inside analyze ruby lowered List.mem_cons_self, rfl, rfl, rfl⟩

/-- A crashed file reports the crash. -/
theorem exists_finding_of_crashed (outcome : (analyzeFiles E settings).Outcome may items report)
    (inside : item ∈ items) (analyze : item.analyze = true)
    (crashed : Crashed E may settings (projectOf E items) item) :
    ∃ finding ∈ report.findings, finding.path = item.path ∧ finding.diag.ruleId = internalErrorRule := by
  rcases crashed with ⟨source, ruby, ⟨msg, refused⟩ | ⟨msg, panics⟩ | ⟨ast, comments, lowered, panics⟩⟩
  · have lowered : lower E item.path source = .ok (.tooDeep msg) := by
      rw [lower, refused]
      rfl
    exact ⟨⟨item.order, item.path, [], depthRefusalDiag msg⟩,
      mem_report_of_lowered outcome inside analyze ruby lowered List.mem_cons_self, rfl, rfl⟩
  · exact ⟨⟨item.order, item.path, [], internalErrorDiag msg⟩,
      mem_report_of_lowered outcome inside analyze ruby panics List.mem_cons_self, rfl, rfl⟩
  · have ends := stage1_of_isRuby ruby analyze
    rw [lowered] at ends
    have prepared : (stage1 E item).prepared? = some ⟨item.order, item.path, source, ast, comments⟩ := by
      rw [ends]
      rfl
    rcases exists_made_of_prepared outcome inside prepared with ⟨made, yields, reported⟩
    rcases panics made yields with ⟨msg, rfl⟩
    exact ⟨⟨item.order, item.path, [], internalErrorDiag msg⟩, reported _ List.mem_cons_self, rfl, rfl⟩

end Causes

/-! ## The exit -/

variable {args : CheckArgs R} {analyzed : Analyzed} {finding : Finding}

theorem exit_eq_one_iff : (args.check analyzed).exit = 1 ↔ args.fails (args.input analyzed) = true := by
  rw [CheckArgs.check]
  cases args.fails (args.input analyzed) <;> simp

theorem fails_of_printed (mem : finding ∈ args.printed analyzed) (bad : findingFailsRun finding.diag = true) :
    args.fails analyzed = true := by
  have some_ : (args.printed analyzed).any (fun finding => findingFailsRun finding.diag) = true :=
    List.any_eq_true.mpr ⟨finding, mem, bad⟩
  simp [CheckArgs.fails, some_]

theorem fails_of_hadIoError (unread : analyzed.report.hadIoError = true) : args.fails analyzed = true := by
  simp [CheckArgs.fails, unread]

/-- A row without a rule is printed whatever the baseline. -/
theorem mem_printed_of_ruleless (mem : finding ∈ analyzed.report.findings)
    (bare : finding.diag.ruleId = ruleless) : finding ∈ args.printed analyzed := by
  rw [mem_printed_iff, mem_applyBaseline_iff]
  refine Or.inl ⟨mem, fun baseline _ => ?_⟩
  have unruled : (args.entry finding).2.qualifiedRule = none := by
    rw [CheckArgs.entry, Diagnostic.qualifiedRule, bare]
    rfl
  have unclaimed : baseline.claiming (args.entry finding) = none := by
    rw [Baseline.claiming, unruled]
  rw [Baseline.silences, unclaimed]

/-- Any other row is printed unless a row of the baseline names its file and its rule. -/
theorem mem_printed_or_claimed (args : CheckArgs R) (mem : finding ∈ analyzed.report.findings) :
    finding ∈ args.printed analyzed ∨ ∃ baseline, args.baseline? = some baseline ∧
      ∃ bucket ∈ baseline.buckets, bucket.file = relativePath finding.path args.cwd ∧
        bucket.rule = finding.diag.ruleId := by
  by_cases printed : finding ∈ args.printed analyzed
  · exact Or.inl printed
  · rw [mem_printed_iff, mem_applyBaseline_iff, not_or, not_and] at printed
    have quiet := printed.1 mem
    push Not at quiet
    rcases quiet with ⟨baseline, applied, silenced⟩
    rw [Baseline.silences] at silenced
    cases claims : baseline.claiming (args.entry finding) with
    | none => simp [claims] at silenced
    | some bucket =>
        have named := Baseline.qualifiedRule_of_claiming claims
        have rule := named.2
        rw [Diagnostic.qualifiedRule] at rule
        split at rule
        · exact Or.inr ⟨baseline, applied, bucket, Baseline.claiming_mem claims, named.1,
            (Option.some.inj rule).symm⟩
        · exact absurd rule (by simp)

variable (E : Engine Tree Ast Interner Harvest Project) (settings : Settings) {folder : Folder S}

/-- Beside a steady folder, the report of a run that has ended is the stream. -/
theorem report_of_run {answers : Sidecar.FoldableCall → Option Types.Scalar} (steady : folder.Steady answers)
    {items : List WorkItem} (ordered : Ordered items) {events : List Event} {report : Report}
    (run : ((analyzeFiles E settings).system folder items).Run (Plan.initial folder items) events
      (.finished report)) : report = streamed E answers settings items := by
  rw [← serial_analyzeFiles E answers settings ordered]
  exact Plan.outcome_eq_iff.mp (Plan.outcome_of_run steady run)

/-- After any run of the workers beside any folder, an analysed file that is unreadable, broken or crashed fails
`check`, and all but the unreadable one have a row in what is printed, unless a row of the baseline names the
crash. -/
theorem check_fails_of_failure (folder : Folder S) (may : Sidecar.FoldableCall → Option Types.Scalar → Prop)
    (gives : folder.Gives may) (expand : List Text → List Text) (configPaths files : List Text)
    (argvRoots : Option (List Text)) (events : List Event) (report : Report)
    (run : ((analyzeFiles E settings).system folder (worklist expand configPaths files argvRoots)).Run
      (Plan.initial folder (worklist expand configPaths files argvRoots)) events (.finished report))
    (args : CheckArgs R) (accepted : args.targetRubyFailure = none) (pathErrors : List PathError)
    (anyFiles : Bool) (item : WorkItem) (inside : item ∈ worklist expand configPaths files argvRoots)
    (analyze : item.analyze = true) :
    (Unreadable E item.path → (args.check ⟨report, pathErrors, anyFiles⟩).exit = 1) ∧
      (Broken E item.path → (args.check ⟨report, pathErrors, anyFiles⟩).exit = 1 ∧
        ∃ finding ∈ (args.check ⟨report, pathErrors, anyFiles⟩).findings,
          finding.path = item.path ∧ finding.diag.ruleId = ruleless) ∧
      (Crashed E may settings (projectOf E (worklist expand configPaths files argvRoots)) item →
        ((args.check ⟨report, pathErrors, anyFiles⟩).exit = 1 ∧
          ∃ finding ∈ (args.check ⟨report, pathErrors, anyFiles⟩).findings,
            finding.path = item.path ∧ finding.diag.ruleId = internalErrorRule) ∨
          ∃ baseline, args.baseline? = some baseline ∧ ∃ bucket ∈ baseline.buckets,
            bucket.file = relativePath item.path args.cwd ∧ bucket.rule = internalErrorRule) := by
  have outcome := Plan.outcome_of_run gives run
  have input : args.input ⟨report, pathErrors, anyFiles⟩ = ⟨report, pathErrors, anyFiles⟩ := by
    rw [CheckArgs.input, accepted]
  rw [exit_eq_one_iff]
  simp only [CheckArgs.check, input]
  refine ⟨?_, ?_, ?_⟩
  · intro unreadable
    apply fails_of_hadIoError
    exact hadIoError_of_unreadable outcome inside analyze unreadable
  · intro broken
    rcases exists_finding_of_broken outcome inside analyze broken with ⟨finding, mem, path, bare, error⟩
    have printed : finding ∈ args.printed ⟨report, pathErrors, anyFiles⟩ := mem_printed_of_ruleless mem bare
    exact ⟨fails_of_printed printed (by simp [findingFailsRun, error]), finding, printed, path, bare⟩
  · intro crashed
    rcases exists_finding_of_crashed outcome inside analyze crashed with ⟨finding, mem, path, rule⟩
    have reported : finding ∈ (⟨report, pathErrors, anyFiles⟩ : Analyzed).report.findings := mem
    rcases mem_printed_or_claimed args reported with printed | ⟨baseline, applied, bucket, among, file, named⟩
    · exact Or.inl ⟨fails_of_printed printed (by simp [findingFailsRun, rule]), finding, printed, path, rule⟩
    · exact Or.inr ⟨baseline, applied, bucket, among, by rw [file, path], by rw [named, rule]⟩

def sampleArgs : CheckArgs literalEngine where
  baselineArg := .unset
  configBaseline := none
  load _ := .ok ⟨[]⟩
  baselineStrict := false
  failOn := .error
  cwd := none
  targetRubyFailure := none

/-- What the two sample files give. -/
def sampleReport (profile : Profile) : Report :=
  streamed sampleEngine sampleAnswers (sampleSettings profile) (worklist id [] sampleFiles none)

theorem check_fails_of_failure_sample :
    (sampleArgs.check ⟨sampleReport .lenient, [], true⟩).exit = 1 ∧
      ∃ finding ∈ (sampleArgs.check ⟨sampleReport .lenient, [], true⟩).findings,
        finding.path = "b.rb".toList ∧ finding.diag.ruleId = ruleless := by
  rcases exists_run sampleEngine (sampleSettings .lenient) steady_sampleFolder
    (ordered_worklist id [] sampleFiles none) with ⟨events, run⟩
  have failures := check_fails_of_failure sampleEngine (sampleSettings .lenient) sampleFolder _
    (Resource.gives_true _) id [] sampleFiles none events _ run sampleArgs rfl [] true
    ⟨0, "b.rb".toList, true⟩ List.mem_cons_self rfl
  exact failures.2.1 ⟨_, _, ⟨rfl, by decide⟩, rfl, List.cons_ne_nil _ _⟩

end Rigor.Cli.Check
