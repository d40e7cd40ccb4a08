import Rigor.Cli.Check.Pipeline
import Rigor.Cli.Sidecar.Folder

/-!
# The findings of a run in input order

The two pools, the drains and the stable sort of `analyze_files` together report each file's findings at the
file's own place, whatever the order in which the workers took the files, while the folder answers a call alike
each time.  A folder whose worker is lost between two calls does not: what a file reports then depends on the
calls of the files before it.
-/

namespace Rigor.Cli.Check

open Rigor.Library.Runs Rigor.Library.StableSort Rigor.Library.Stages Rigor.Rules Rigor.Rules.Suppression

variable {Tree Ast Interner Harvest Project : Type}

/-! ## What stage 1 leaves of an item -/

namespace Stage1

def prepared? : Stage1 Ast Harvest → Option (Prepared Ast)
  | .prepared file _ => some file
  | _ => none

def harvested? : Stage1 Ast Harvest → Option (Harvest × Ast)
  | .prepared file harvest => some (harvest, file.ast)
  | .discovery ast harvest => some (harvest, ast)
  | _ => none

def findings : Stage1 Ast Harvest → List Finding
  | .parseErrors order path source diags => diags.map fun diag => ⟨order, path, source, diag⟩
  | .panic order path msg => [⟨order, path, [], internalErrorDiag msg⟩]
  | .tooDeep order path msg => [⟨order, path, [], depthRefusalDiag msg⟩]
  | _ => []

def isIoError : Stage1 Ast Harvest → Bool
  | .ioError .. => true
  | _ => false

def line? (verb : Text) : Stage1 Ast Harvest → Option Text
  | .ioError path msg => some (cannotReadLine verb path msg)
  | .panic _ path msg => some (internalPanicLine verb path msg)
  | .tooDeep _ path msg => some (depthSkipLine verb path msg)
  | _ => none

end Stage1

section Drain

variable {settings : Settings}

theorem push_eq (drained : Drained Ast Harvest) (outcome : Stage1 Ast Harvest) :
    drained.push settings outcome =
      { prepared := drained.prepared ++ outcome.prepared?.toList
        harvests := drained.harvests ++ outcome.harvested?.toList
        findings := drained.findings ++ outcome.findings
        hadIoError := drained.hadIoError || outcome.isIoError
        stderr := drained.stderr ++ (outcome.line? settings.verb).toList } := by
  cases outcome <;> simp [Drained.push, Stage1.prepared?, Stage1.harvested?, Stage1.findings,
    Stage1.isIoError, Stage1.line?]

theorem foldl_push_eq (settings : Settings) (drained : Drained Ast Harvest)
    (outcomes : List (Stage1 Ast Harvest)) :
    outcomes.foldl (Drained.push settings) drained =
      { prepared := drained.prepared ++ outcomes.filterMap Stage1.prepared?
        harvests := drained.harvests ++ outcomes.filterMap Stage1.harvested?
        findings := drained.findings ++ outcomes.flatMap Stage1.findings
        hadIoError := drained.hadIoError || outcomes.any Stage1.isIoError
        stderr := drained.stderr ++ outcomes.filterMap (Stage1.line? settings.verb) } := by
  induction outcomes generalizing drained with
  | nil => simp
  | cons outcome outcomes ih =>
      have front {γ : Type} (f : Stage1 Ast Harvest → Option γ) :
          (f outcome).toList ++ outcomes.filterMap f = (outcome :: outcomes).filterMap f := by
        cases kept : f outcome with
        | none => rw [List.filterMap_cons_none kept, Option.toList_none, List.nil_append]
        | some c => rw [List.filterMap_cons_some kept, Option.toList_some, List.singleton_append]
      rw [List.foldl_cons, ih, push_eq]
      simp [front, Bool.or_assoc]

end Drain

variable (E : Engine Tree Ast Interner Harvest Project) (answers : Sidecar.FoldableCall → Option Types.Scalar)
  (settings : Settings)

/-! ## What a run reports of an item -/

/-- The index of the run. -/
def projectOf (items : List WorkItem) : Project :=
  E.merge (items.filterMap fun item => (stage1 E item).harvested?)

/-- The findings of the stage that an item ends in, with the answers of the folder. -/
def itemFindings (project : Project) (item : WorkItem) : List Finding :=
  (stage1 E item).findings ++
    ((stage1 E item).prepared?.map fun file => ((stage3 E settings project file).run answers).findings).getD []

/-- The line of a panic in stage 3. -/
def panicLine? (project : Project) (item : WorkItem) : Option Text :=
  (stage1 E item).prepared?.bind fun file =>
    ((stage3 E settings project file).run answers).panic.map fun panic =>
      internalPanicLine settings.verb panic.1 panic.2

/-- The calls to the folder in a run. -/
def foldCalls (items : List WorkItem) : Nat :=
  ((items.filterMap fun item => (stage1 E item).prepared?).map fun file =>
    (diagnose E settings (projectOf E items) file).length answers).sum

/-- The rows of the run around the findings of the items, each at its item's place. -/
def streamed (items : List WorkItem) : Report where
  findings :=
    runRows E settings ++ items.flatMap (itemFindings E answers settings (projectOf E items)) ++
      emittedRows settings ++ conformanceRows E settings
  hadIoError := items.any fun item => (stage1 E item).isIoError
  stderr :=
    settings.pluginStderr ++ items.filterMap (fun item => (stage1 E item).line? settings.verb) ++
      items.filterMap (panicLine? E answers settings (projectOf E items))

/-! ## The orders of a worklist -/

/-- The orders of the analysed items ascend; the discovery-only ones come after them. -/
def Ordered (items : List WorkItem) : Prop :=
  ∃ analyzed discovery, items = analyzed ++ discovery ∧
    analyzed.Pairwise (fun a b => a.order < b.order) ∧ ∀ item ∈ discovery, item.analyze = false

theorem ordered_worklist (expand : List Text → List Text) (configPaths files : List Text)
    (argvRoots : Option (List Text)) : Ordered (worklist expand configPaths files argvRoots) := by
  have ascending (start : Nat) : ((files.zipIdx start).map fun file =>
      ({ order := file.2, path := file.1, analyze := true } : WorkItem)).Pairwise
        fun a b => a.order < b.order := by
    rw [List.pairwise_map]
    induction files generalizing start with
    | nil => exact .nil
    | cons file files ih =>
        rw [List.zipIdx_cons, List.pairwise_cons]
        refine ⟨?_, ih (start + 1)⟩
        intro later mem
        exact (List.mem_zipIdx mem).1
  have alone : Ordered (files.zipIdx.map fun file => ⟨file.2, file.1, true⟩) :=
    ⟨_, [], (List.append_nil _).symm, ascending 0, by simp⟩
  unfold worklist
  cases argvRoots with
  | none => exact alone
  | some roots =>
      simp only
      split
      · refine ⟨_, _, rfl, ascending 0, ?_⟩
        intro item mem
        rcases List.mem_map.mp mem with ⟨path, -, rfl⟩
        rfl
      · exact alone

section Items

variable {E} {answers} {settings} {project : Project} {item : WorkItem}

/-- The outcomes of an item that is analysed, and those of a discovery-only one. -/
inductive OutcomeOf (item : WorkItem) : Stage1 Ast Harvest → Prop where
  | excluded : OutcomeOf item .excluded
  | prepared (source : Text) (ast : Ast) (comments : List Comment) (harvest : Harvest)
      (analyze : item.analyze = true) :
      OutcomeOf item (.prepared ⟨item.order, item.path, source, ast, comments⟩ harvest)
  | discovery (ast : Ast) (harvest : Harvest) (discovery : item.analyze = false) :
      OutcomeOf item (.discovery ast harvest)
  | ioError (msg : Text) (analyze : item.analyze = true) : OutcomeOf item (.ioError item.path msg)
  | parseErrors (source : Text) (diags : List Rules.Diagnostic) (analyze : item.analyze = true) :
      OutcomeOf item (.parseErrors item.order item.path source diags)
  | panic (msg : Text) (analyze : item.analyze = true) : OutcomeOf item (.panic item.order item.path msg)
  | tooDeep (msg : Text) (analyze : item.analyze = true) :
      OutcomeOf item (.tooDeep item.order item.path msg)

theorem outcomeOf_stage1 (E : Engine Tree Ast Interner Harvest Project) (item : WorkItem) :
    OutcomeOf item (stage1 E item) := by
  unfold stage1
  cases E.readToString item.path with
  | error msg =>
      by_cases analyze : item.analyze = true
      · simpa [analyze] using OutcomeOf.ioError msg analyze
      · simpa [analyze] using OutcomeOf.excluded
  | ok source =>
      by_cases template : looksLikeErbTemplate source = true
      · simpa [template] using OutcomeOf.excluded
      · rw [Bool.not_eq_true] at template
        simp only [template, Bool.false_eq_true, if_false]
        rcases lower E item.path source with msg | lowered
        · by_cases analyze : item.analyze = true
          · simpa [analyze] using OutcomeOf.panic msg analyze
          · simpa [analyze] using OutcomeOf.excluded
        · rcases lowered with ⟨ast, comments⟩ | diags | msg
          · by_cases analyze : item.analyze = true
            · simpa [analyze] using OutcomeOf.prepared source ast comments (E.harvest ast) analyze
            · rw [Bool.not_eq_true] at analyze
              simpa [analyze] using OutcomeOf.discovery ast (E.harvest ast) analyze
          · by_cases analyze : item.analyze = true
            · simpa [analyze] using OutcomeOf.parseErrors source diags analyze
            · simpa [analyze] using OutcomeOf.excluded
          · by_cases analyze : item.analyze = true
            · simpa [analyze] using OutcomeOf.tooDeep msg analyze
            · simpa [analyze] using OutcomeOf.excluded

/-- A discovery-only item reports nothing and is never analysed. -/
theorem quiet_of_discovery (discovery : item.analyze = false) :
    (stage1 E item).findings = [] ∧ (stage1 E item).prepared? = none := by
  have outcome := outcomeOf_stage1 E item
  generalize stage1 E item = result at outcome ⊢
  cases outcome with
  | excluded => exact ⟨rfl, rfl⟩
  | discovery => exact ⟨rfl, rfl⟩
  | prepared _ _ _ _ analyze => exact absurd (analyze.symm.trans discovery) (by simp)
  | ioError _ analyze => exact absurd (analyze.symm.trans discovery) (by simp)
  | parseErrors _ _ analyze => exact absurd (analyze.symm.trans discovery) (by simp)
  | panic _ analyze => exact absurd (analyze.symm.trans discovery) (by simp)
  | tooDeep _ analyze => exact absurd (analyze.symm.trans discovery) (by simp)

theorem order_of_mem_findings {finding : Finding} (mem : finding ∈ (stage1 E item).findings) :
    finding.order = item.order := by
  have outcome := outcomeOf_stage1 E item
  generalize stage1 E item = result at outcome mem
  cases outcome with
  | excluded => cases mem
  | discovery => cases mem
  | prepared => cases mem
  | ioError => cases mem
  | parseErrors source diags _ =>
      rcases List.mem_map.mp mem with ⟨diag, -, rfl⟩
      rfl
  | panic msg _ => rw [List.mem_singleton.mp mem]
  | tooDeep msg _ => rw [List.mem_singleton.mp mem]

theorem order_of_prepared {file : Prepared Ast} (prepared : (stage1 E item).prepared? = some file) :
    file.order = item.order := by
  have outcome := outcomeOf_stage1 E item
  generalize stage1 E item = result at outcome prepared
  cases outcome with
  | prepared source ast comments harvest _ => rw [← Option.some.inj prepared]
  | _ => cases prepared

theorem run_stage3 (answers : Sidecar.FoldableCall → Option Types.Scalar) (file : Prepared Ast) :
    (stage3 E settings project file).run answers =
      Stage3.ofUnwinding E settings file ((diagnose E settings project file).run answers) :=
  Asking.run_map _ _

theorem order_of_mem_ofUnwinding {file : Prepared Ast} {made : Unwinding (List Rules.Diagnostic)}
    {finding : Finding} (mem : finding ∈ (Stage3.ofUnwinding E settings file made).findings) :
    finding.order = file.order := by
  cases made with
  | error msg => rw [List.mem_singleton.mp mem]
  | ok diags =>
      rcases List.mem_filterMap.mp mem with ⟨entry, -, stamped⟩
      rcases Option.map_eq_some_iff.mp stamped with ⟨diag, -, rfl⟩
      rfl

theorem order_of_mem_itemFindings {finding : Finding}
    (mem : finding ∈ itemFindings E answers settings project item) : finding.order = item.order := by
  rcases List.mem_append.mp mem with early | late
  · exact order_of_mem_findings early
  · cases prepared : (stage1 E item).prepared? with
    | none => simp [prepared] at late
    | some file =>
        rw [prepared, Option.map_some, Option.getD_some, run_stage3] at late
        exact (order_of_mem_ofUnwinding late).trans (order_of_prepared prepared)

end Items

/-! ## The serial run -/

theorem flatMap_filterMap {α β γ : Type} (f : α → Option β) (g : β → List γ) (items : List α) :
    (items.filterMap f).flatMap g = items.flatMap fun a => ((f a).map g).getD [] := by
  induction items with
  | nil => rfl
  | cons a items ih =>
      cases picked : f a with
      | none => rw [List.filterMap_cons_none picked, ih, List.flatMap_cons, picked]; rfl
      | some b =>
          rw [List.filterMap_cons_some picked, List.flatMap_cons, ih, List.flatMap_cons, picked]
          rfl

/-- The sort puts the findings of both stages at the places of their items. -/
theorem sort_stages {items : List WorkItem} (ordered : Ordered items) (project : Project) :
    sortByKey Finding.order (items.flatMap (fun item => (stage1 E item).findings) ++
        items.flatMap fun item => ((stage1 E item).prepared?.map fun file =>
          ((stage3 E settings project file).run answers).findings).getD []) =
      items.flatMap (itemFindings E answers settings project) := by
  rcases ordered with ⟨analyzed, discovery, rfl, ascending, quiet⟩
  have silent (pick : WorkItem → List Finding) (none : ∀ item ∈ discovery, pick item = []) :
      (analyzed ++ discovery).flatMap pick = analyzed.flatMap pick := by
    rw [List.flatMap_append, List.flatMap_eq_nil_iff.mpr none, List.append_nil]
  rw [silent, silent, silent]
  · apply sortByKey_append ascending
    · intro item finding mem
      exact order_of_mem_findings mem
    · intro item finding mem
      exact order_of_mem_itemFindings (List.mem_append_right _ mem)
  · intro item mem
    rw [itemFindings, (quiet_of_discovery (quiet item mem)).1, (quiet_of_discovery (quiet item mem)).2]
    rfl
  · intro item mem
    rw [(quiet_of_discovery (quiet item mem)).2]
    rfl
  · intro item mem
    exact (quiet_of_discovery (quiet item mem)).1

/-- The drain of stage 1 on the outcomes of the items. -/
theorem met_analyzeFiles (items : List WorkItem) :
    (analyzeFiles E settings).met answers items =
      (({ prepared := items.filterMap fun item => (stage1 E item).prepared?
          harvests := items.filterMap fun item => (stage1 E item).harvested?
          findings := items.flatMap fun item => (stage1 E item).findings
          hadIoError := items.any fun item => (stage1 E item).isIoError
          stderr := settings.pluginStderr ++
            items.filterMap fun item => (stage1 E item).line? settings.verb }, projectOf E items),
        items.filterMap fun item => (stage1 E item).prepared?) := by
  have drained := foldl_push_eq settings
    { prepared := [], harvests := [], findings := [], hadIoError := false, stderr := settings.pluginStderr }
    (items.map (stage1 E))
  simp only [List.filterMap_map, List.flatMap_map, List.any_map, List.nil_append, Bool.false_or] at drained
  change drain E settings (items.map (stage1 E)) = _
  unfold drain
  rw [drained]
  rfl

theorem serial_analyzeFiles {items : List WorkItem} (ordered : Ordered items) :
    (analyzeFiles E settings).serial answers items = streamed E answers settings items := by
  rw [Plan.serial, met_analyzeFiles, streamed]
  change finish E settings _
    (List.map (fun file => (stage3 E settings (projectOf E items) file).run answers) _) = _
  rw [finish, List.flatMap_map, flatMap_filterMap]
  dsimp only
  rw [sort_stages E answers settings ordered, List.filterMap_map, List.filterMap_filterMap]
  rfl

variable {E} {answers} {settings} {R : Type} {folder : Folder R}

/-- The workers can always bring a run to its end. -/
theorem exists_run (E : Engine Tree Ast Interner Harvest Project) (settings : Settings)
    (steady : folder.Steady answers) {items : List WorkItem} (ordered : Ordered items) :
    ∃ events, ((analyzeFiles E settings).system folder items).Run (Plan.initial folder items) events
      (.finished (streamed E answers settings items)) := by
  rw [← serial_analyzeFiles E answers settings ordered]
  exact Plan.exists_run steady _ rfl (Plan.serving_initial _ _ _ _)

theorem labour_analyzeFiles_le (E : Engine Tree Ast Interner Harvest Project)
    (answers : Sidecar.FoldableCall → Option Types.Scalar) (settings : Settings) (items : List WorkItem) :
    (analyzeFiles E settings).labour answers items ≤
      4 * items.length + foldCalls E answers settings items := by
  have first : work answers (analyzeFiles E settings).first items = 2 * items.length := by
    have silent : (items.map fun _ => 0).sum = 0 := by simp
    rw [work_eq]
    change (items.map fun _ => 0).sum + 2 * items.length = _
    rw [silent, Nat.zero_add]
  have second : work answers ((analyzeFiles E settings).second ((analyzeFiles E settings).met answers items).1)
      ((analyzeFiles E settings).met answers items).2 =
        foldCalls E answers settings items +
          2 * (items.filterMap fun item => (stage1 E item).prepared?).length := by
    rw [work_eq, met_analyzeFiles, foldCalls]
    simp only [analyzeFiles, stage3, Asking.length_map]
  have fewer := List.length_filterMap_le (fun item => (stage1 E item).prepared?) items
  rw [Plan.labour, first, second]
  omega

theorem ended_iff (E : Engine Tree Ast Interner Harvest Project) (settings : Settings)
    (steady : folder.Steady answers) {items : List WorkItem} (ordered : Ordered items) {events : List Event}
    {final : State Sidecar.FoldableCall (Option Types.Scalar) R WorkItem (Stage1 Ast Harvest) (Prepared Ast)
      Stage3 (Drained Ast Harvest × Project) Report}
    (run : ((analyzeFiles E settings).system folder items).Run (Plan.initial folder items) events final) :
    (∀ event : Event, ¬event.Enabled final) ↔ final = .finished (streamed E answers settings items) := by
  rw [← serial_analyzeFiles E answers settings ordered]
  exact (Plan.run_serial steady run).2

/-- With a worker of the sidecar that replies to every call with a line that can be read, the folder gives what
is read of the replies. -/
theorem ended_iff_of_healthy (E : Engine Tree Ast Interner Harvest Project) (settings : Settings)
    {P : Sidecar.Platform} {tables : Sidecar.DebugTables} (sound : (Sidecar.folderSetup P tables).Sound)
    (healthy : P.Healthy) {items : List WorkItem} (ordered : Ordered items) {events : List Event}
    {final : State Sidecar.FoldableCall (Option Types.Scalar) (Sidecar.World Sidecar.FoldableCall) WorkItem
      (Stage1 Ast Harvest) (Prepared Ast) Stage3 (Drained Ast Harvest × Project) Report}
    (run : ((analyzeFiles E settings).system (Sidecar.sidecarFolder P tables) items).Run
      (Plan.initial (Sidecar.sidecarFolder P tables) items) events final) :
    (∀ event : Event, ¬event.Enabled final) ↔
      final = .finished (streamed E (fun call => Sidecar.received P call.val) settings items) :=
  ended_iff E settings (Sidecar.steady_sidecarFolder sound healthy) ordered run

/-- Beside a folder that answers a call alike each time: whatever the order in which the workers take the files,
call the folder and finish, a run of `analyze_files` ends, with the stream in which each file's findings stand at
the file's own place. -/
theorem analyzeFiles_streamed (E : Engine Tree Ast Interner Harvest Project) (settings : Settings)
    (folder : Folder R) (answers : Sidecar.FoldableCall → Option Types.Scalar) (steady : folder.Steady answers)
    (expand : List Text → List Text) (configPaths files : List Text) (argvRoots : Option (List Text))
    (events : List Event)
    (final : State Sidecar.FoldableCall (Option Types.Scalar) R WorkItem (Stage1 Ast Harvest) (Prepared Ast)
      Stage3 (Drained Ast Harvest × Project) Report)
    (run : ((analyzeFiles E settings).system folder (worklist expand configPaths files argvRoots)).Run
      (Plan.initial folder (worklist expand configPaths files argvRoots)) events final) :
    events.length ≤ 4 * (worklist expand configPaths files argvRoots).length +
        foldCalls E answers settings (worklist expand configPaths files argvRoots) + 2 ∧
      ((∀ event : Event, ¬event.Enabled final) ↔
        final = .finished (streamed E answers settings (worklist expand configPaths files argvRoots))) := by
  have ordered := ordered_worklist expand configPaths files argvRoots
  have length := (Plan.run_serial steady run).1
  have most := labour_analyzeFiles_le E answers settings (worklist expand configPaths files argvRoots)
  exact ⟨by omega, ended_iff E settings steady ordered run⟩

/-! ## What is reported of a file -/

/-- A diagnostic is reported with a severity: the sentinel as it is, any other unless a comment or a
`disable:` token drops its rule, or the severity resolves to `off`. -/
def Shown (settings : Settings) (file : Prepared Ast) (diag : Rules.Diagnostic) (severity : Severity) : Prop :=
  if diag.ruleId = internalErrorRule then severity = diag.severity
  else
    (∀ comment ∈ file.comments, ¬comment.Drops (lineCol file.source diag.startOffset).1 diag.ruleId) ∧
      (∀ token ∈ settings.disable, ¬Suppression.Drops token diag.ruleId) ∧
        (resolve diag.ruleId (.ofSeverity diag.severity) settings.profile settings.severityOverrides
          settings.bleedingEdgeOverrides).severity? = some severity

theorem restamp_eq_some_iff {diag diag' : Rules.Diagnostic} :
    settings.restamp diag = some diag' ↔
      ∃ severity, diag' = { diag with severity := severity } ∧
        if diag.ruleId = internalErrorRule then severity = diag.severity
        else (∀ token ∈ settings.disable, ¬Suppression.Drops token diag.ruleId) ∧
          (resolve diag.ruleId (.ofSeverity diag.severity) settings.profile settings.severityOverrides
            settings.bleedingEdgeOverrides).severity? = some severity := by
  unfold Settings.restamp
  by_cases sentinel : diag.ruleId = internalErrorRule
  · have reportable : ¬(SuppressSet.fromTokens settings.disable).suppresses diag.ruleId = true := by
      rw [SuppressSet.fromTokens_suppresses_iff]
      exact fun suppressed => suppressed.1 sentinel
    simp only [if_neg reportable, if_pos sentinel]
    constructor
    · intro same
      exact ⟨diag.severity, (Option.some.inj same).symm, rfl⟩
    · rintro ⟨severity, rfl, rfl⟩
      rfl
  · simp only [if_neg sentinel]
    have dropped := SuppressSet.fromTokens_suppresses_iff settings.disable diag.ruleId
    rw [and_iff_right sentinel] at dropped
    by_cases disabled : (SuppressSet.fromTokens settings.disable).suppresses diag.ruleId = true
    · rw [if_pos disabled]
      constructor
      · intro impossible
        cases impossible
      · rintro ⟨severity, -, spared, -⟩
        rcases dropped.mp disabled with ⟨token, mem, drops⟩
        exact absurd drops (spared token mem)
    · rw [if_neg disabled, Option.map_eq_some_iff]
      rw [dropped] at disabled
      push Not at disabled
      constructor
      · rintro ⟨severity, resolved, rfl⟩
        exact ⟨severity, rfl, disabled, resolved⟩
      · rintro ⟨severity, rfl, -, resolved⟩
        exact ⟨severity, resolved, rfl⟩

/-- A file that is analysed reports exactly the diagnostics of its rules and of its suppression comments that
are shown. -/
theorem mem_itemFindings_iff (E : Engine Tree Ast Interner Harvest Project)
    (answers : Sidecar.FoldableCall → Option Types.Scalar) (settings : Settings) {project : Project}
    {item : WorkItem} {file : Prepared Ast} {harvest : Harvest}
    (prepared : stage1 E item = .prepared file harvest) {diags : List Rules.Diagnostic}
    (analyzed : (diagnose E settings project file).run answers = .ok diags) (finding : Finding) :
    finding ∈ itemFindings E answers settings project item ↔
      ∃ diag ∈ diags ++ E.suppressionMarkerDiagnostics file.comments, ∃ severity,
        Shown settings file diag severity ∧
          finding = ⟨file.order, file.path, file.source, { diag with severity := severity }⟩ := by
  have only : itemFindings E answers settings project item = report E settings file diags := by
    rw [itemFindings, prepared]
    change [] ++ ((stage3 E settings project file).run answers).findings = _
    rw [run_stage3, analyzed]
    rfl
  rw [only, report, filterSuppressed]
  simp only [List.mem_filterMap, List.mem_filter, List.mem_map, Option.map_eq_some_iff]
  constructor
  · rintro ⟨entry, ⟨⟨diag, mem, rfl⟩, spared⟩, diag', stamped, rfl⟩
    rcases restamp_eq_some_iff.mp stamped with ⟨severity, rfl, shown⟩
    refine ⟨diag, mem, severity, ?_, rfl⟩
    rw [kept_iff] at spared
    unfold Shown
    by_cases sentinel : diag.ruleId = internalErrorRule
    · rw [if_pos sentinel] at shown ⊢
      exact shown
    · rw [if_neg sentinel] at shown ⊢
      exact ⟨spared.resolve_left sentinel, shown⟩
  · rintro ⟨diag, mem, severity, shown, rfl⟩
    unfold Shown at shown
    refine ⟨_, ⟨⟨diag, mem, rfl⟩, ?_⟩, _, restamp_eq_some_iff.mpr ⟨severity, rfl, ?_⟩, rfl⟩
    · rw [kept_iff]
      by_cases sentinel : diag.ruleId = internalErrorRule
      · exact Or.inl sentinel
      · rw [if_neg sentinel] at shown
        exact Or.inr shown.1
    · by_cases sentinel : diag.ruleId = internalErrorRule
      · rw [if_pos sentinel] at shown ⊢
        exact shown
      · rw [if_neg sentinel] at shown ⊢
        exact shown.2

/-! ## A run -/

/-- `255.to_s(16)`. -/
def sampleFold : Sidecar.FoldableCall :=
  ⟨⟨.int 255, "to_s".toList, [.int 16]⟩, by decide +kernel⟩

def sampleAnswers (call : Sidecar.FoldableCall) : Option Types.Scalar :=
  if call = sampleFold then some (.str "ff".toList) else none

/-- A folder that keeps the calls. -/
def sampleFolder : Folder (List Sidecar.FoldableCall) where
  start := []
  reply call asked := (sampleAnswers call, call :: asked)

theorem steady_sampleFolder : sampleFolder.Steady sampleAnswers :=
  fun _ _ => rfl

def sampleSource : Text :=
  "255.to_s(16).foo\n1.foo # rigor:disable call.undefined-method\n".toList

/-- The diagnostic that rests on the fold. -/
def sampleDiagnostic : Rules.Diagnostic :=
  plainDiagnostic "call.undefined-method".toList 13 16 "undefined method `foo' for \"ff\"".toList .error builtin

/-- The diagnostic beside the comment. -/
def mutedDiagnostic : Rules.Diagnostic :=
  plainDiagnostic "call.undefined-method".toList 19 22 "undefined method `foo' for 1".toList .error builtin

/-- An engine on two files, of which `b.rb` does not parse. -/
def sampleEngine : Engine (List SyntaxError) Unit Unit Unit Unit where
  readToString path := .ok (if path = "b.rb".toList then "foo(".toList else sampleSource)
  parseBounded source :=
    .ok (.ok (if source = "foo(".toList then [⟨4, 4, "unexpected end-of-input".toList⟩] else []))
  errors := id
  commentLines _ _ := [⟨2, 23, "# rigor:disable call.undefined-method".toList⟩]
  lowerWithKey _ _ := .ok ()
  harvest := id
  merge _ := ()
  newInterner := ()
  analyzeWithSourceAndFolder _ _ _ := .ask sampleFold fun answer =>
    .done (.ok (if answer.isSome then [sampleDiagnostic, mutedDiagnostic] else [mutedDiagnostic], ()))
  shadowedRescueDiagnostics _ _ _ := .ok []
  voidValueUseDiagnostics _ _ _ := .ok []
  filterDeadVersionGuardArms diags _ := .ok diags
  suppressionMarkerDiagnostics _ := []
  conformanceFindings := []
  isFile _ := false
  debug := id

def sampleSettings (profile : Profile) : Settings where
  disable := ["call.wrong-arity".toList]
  profile := profile
  severityOverrides := []
  bleedingEdgeOverrides := []
  preEval := []
  loadErrors := []
  emitted := []
  pluginStderr := []
  verb := "check".toList
  conformanceScanActive := false

def sampleFiles : List Text :=
  ["b.rb".toList, "a.rb".toList]

def sampleEvents : List Event :=
  [.worker (.take 1), .worker (.take 0), .worker (.finish 1), .worker (.finish 0), .proceed,
    .worker (.take 0), .worker (.ask 0), .worker (.finish 0), .proceed]

theorem analyzeFiles_streamed_sample : ∃ final,
    ((analyzeFiles sampleEngine (sampleSettings .balanced)).system sampleFolder
        (worklist id [] sampleFiles none)).Run (Plan.initial sampleFolder (worklist id [] sampleFiles none))
          sampleEvents final ∧
      sampleEvents.length ≤ 4 * (worklist id [] sampleFiles none).length +
        foldCalls sampleEngine sampleAnswers (sampleSettings .balanced) (worklist id [] sampleFiles none) + 2 ∧
      ((∀ event : Event, ¬event.Enabled final) ↔
        final = .finished (streamed sampleEngine sampleAnswers (sampleSettings .balanced)
          (worklist id [] sampleFiles none))) := by
  have run : ∃ final, ((analyzeFiles sampleEngine (sampleSettings .balanced)).system sampleFolder
      (worklist id [] sampleFiles none)).Run (Plan.initial sampleFolder (worklist id [] sampleFiles none))
        sampleEvents final := by
    refine ⟨_, .cons ⟨_, rfl⟩ (.cons ⟨_, rfl⟩ (.cons ⟨_, rfl⟩ (.cons ⟨_, rfl⟩ (.cons ?_
      (.cons ⟨_, rfl⟩ (.cons ⟨_, _, rfl⟩ (.cons ⟨_, rfl⟩ (.cons ?_ (.nil _)))))))))⟩
    · intro slot mem
      rcases List.mem_pair.mp mem with rfl | rfl <;> rfl
    · intro slot mem
      rw [List.mem_singleton.mp mem]
      rfl
  rcases run with ⟨final, run⟩
  exact ⟨final, run, analyzeFiles_streamed sampleEngine _ sampleFolder _ steady_sampleFolder id [] sampleFiles
    none _ final run⟩

/-- The file that parses, with its comment. -/
def sampleFile : Prepared Unit :=
  ⟨1, "a.rb".toList, sampleSource, (), [⟨2, 23, "# rigor:disable call.undefined-method".toList⟩]⟩

/-- The comment drops the diagnostic of its own line, and the `disable:` token drops none. -/
theorem mem_itemFindings_iff_sample :
    ⟨1, "a.rb".toList, sampleSource, sampleDiagnostic⟩ ∈
        itemFindings sampleEngine sampleAnswers (sampleSettings .lenient) () ⟨1, "a.rb".toList, true⟩ ∧
      ⟨1, "a.rb".toList, sampleSource, mutedDiagnostic⟩ ∉
        itemFindings sampleEngine sampleAnswers (sampleSettings .lenient) () ⟨1, "a.rb".toList, true⟩ := by
  have prepared : stage1 sampleEngine ⟨1, "a.rb".toList, true⟩ = .prepared sampleFile () := rfl
  have analyzed : (diagnose sampleEngine (sampleSettings .lenient) () sampleFile).run sampleAnswers =
      .ok [sampleDiagnostic, mutedDiagnostic] := rfl
  have reported := mem_itemFindings_iff sampleEngine sampleAnswers (sampleSettings .lenient) prepared analyzed
  have ruled : sampleDiagnostic.ruleId ≠ internalErrorRule := by decide
  constructor
  · refine (reported _).mpr ⟨sampleDiagnostic, List.mem_cons_self, .error, ?_, rfl⟩
    rw [Shown, if_neg ruled]
    refine ⟨?_, ?_, by decide +kernel⟩
    · have spared : kept (parseSuppressionComments sampleFile.comments)
          (lineCol sampleFile.source sampleDiagnostic.startOffset).1 sampleDiagnostic.ruleId = true := by
        decide +kernel
      exact (kept_iff.mp spared).resolve_left ruled
    · intro token mem drops
      have reportable : (SuppressSet.fromTokens (sampleSettings .lenient).disable).suppresses
          sampleDiagnostic.ruleId = false := by
        decide +kernel
      rw [Bool.eq_false_iff] at reportable
      exact reportable ((SuppressSet.fromTokens_suppresses_iff _ _).mpr ⟨ruled, token, mem, drops⟩)
  · intro mem
    rcases (reported _).mp mem with ⟨diag, among, severity, shown, same⟩
    rcases List.mem_pair.mp among with rfl | rfl
    · cases same
    · rw [Shown, if_neg (by decide)] at shown
      have silenced : kept (parseSuppressionComments sampleFile.comments)
          (lineCol sampleFile.source mutedDiagnostic.startOffset).1 mutedDiagnostic.ruleId = false := by
        decide +kernel
      rw [Bool.eq_false_iff] at silenced
      exact silenced (kept_iff.mpr (Or.inr shown.1))

end Rigor.Cli.Check
