import Rigor.Cli.Check.Failures
import Rigor.Cli.Config.Audit
import Rigor.Cli.Config.Plugins

/-!
# What the audit flags has no effect

A `disable:` token or a `severity_overrides:` key that the audit of the configuration calls ineffective may
be deleted: the run reports the same findings with the same severities.
-/

namespace Rigor.Cli.Check

open Config Rigor.Library.Stages Rigor.Rules Rigor.Rules.Suppression Rigor.Rust

/-! ## Rules of the catalogue -/

/-- `UNSATISFIED_CONFORMANCE` and `RBS_EXTENDED_UNRESOLVED`. -/
def conformanceRules : List Text :=
  ["rbs_extended.unsatisfied-conformance", "dynamic.rbs-extended.unresolved"].map String.toList

section Catalogue

variable {Tree Ast Interner Harvest Project : Type}

/-- The analysis emits rules of the catalogue. -/
structure Engine.Canonical (E : Engine Tree Ast Interner Harvest Project) : Prop where
  analyze : ∀ ast interner project answers diags next,
    (E.analyzeWithSourceAndFolder ast interner project).run answers = .ok (diags, next) →
      ∀ diag ∈ diags, diag.ruleId ∈ allCanonicalRules
  shadowed : ∀ ast project source diags, E.shadowedRescueDiagnostics ast project source = .ok diags →
    ∀ diag ∈ diags, diag.ruleId ∈ allCanonicalRules
  void : ∀ ast interner project diags, E.voidValueUseDiagnostics ast interner project = .ok diags →
    ∀ diag ∈ diags, diag.ruleId ∈ allCanonicalRules
  guards : ∀ diags ast kept, E.filterDeadVersionGuardArms diags ast = .ok kept → ∀ diag ∈ kept, diag ∈ diags
  markers : ∀ comments, ∀ diag ∈ E.suppressionMarkerDiagnostics comments, diag.ruleId ∈ allCanonicalRules
  conformance : ∀ f ∈ E.conformanceFindings, f.ruleId ∈ conformanceRules

variable {E : Engine Tree Ast Interner Harvest Project} {settings : Settings}

theorem Engine.Canonical.diagnose (canonical : E.Canonical) {project : Project} {file : Prepared Ast}
    {answers : Sidecar.FoldableCall → Option Types.Scalar} {diags : List Rules.Diagnostic}
    (made : (diagnose E settings project file).run answers = .ok diags) :
    ∀ diag ∈ diags, diag.ruleId ∈ allCanonicalRules := by
  rw [Check.diagnose, Asking.run_map] at made
  unfold laterPasses at made
  cases analyzed : (E.analyzeWithSourceAndFolder file.ast E.newInterner project).run answers with
  | error msg => simp [analyzed, bind, Except.bind] at made
  | ok pair =>
      rcases pair with ⟨first, interner⟩
      cases shadowed : E.shadowedRescueDiagnostics file.ast project file.source with
      | error msg => simp [analyzed, shadowed, bind, Except.bind] at made
      | ok second =>
          have both : ∀ diag ∈ first ++ second, diag.ruleId ∈ allCanonicalRules := by
            intro diag mem
            rcases List.mem_append.mp mem with mem | mem
            · exact canonical.analyze _ _ _ _ _ _ analyzed diag mem
            · exact canonical.shadowed _ _ _ _ shadowed diag mem
          by_cases active : settings.voidRuleActive = true
          · cases void : E.voidValueUseDiagnostics file.ast interner project with
            | error msg =>
                simp [analyzed, shadowed, active, void, bind, Except.bind, Functor.map, Except.map] at made
            | ok third =>
                simp only [analyzed, shadowed, active, void, bind, Except.bind, Functor.map, Except.map,
                  if_true] at made
                intro diag mem
                rcases List.mem_append.mp (canonical.guards _ _ _ made diag mem) with mem | mem
                · exact both diag mem
                · exact canonical.void _ _ _ _ void diag mem
          · simp only [analyzed, shadowed, active, bind, Except.bind, pure, Except.pure, if_false,
              Bool.false_eq_true] at made
            intro diag mem
            exact both diag (canonical.guards _ _ _ made diag mem)

end Catalogue

/-! ## Tokens -/

section Tokens

variable {ids : Option (List Text)} {token rule : Text}

theorem not_effective_of_flagged (flagged : disableTokenProblem token ids ≠ none) :
    isEffectiveDisableToken token = false := by
  by_contra effective
  rw [Bool.not_eq_false] at effective
  exact flagged (by rw [disableTokenProblem, if_pos effective])

theorem not_drops_of_flagged (flagged : disableTokenProblem token ids ≠ none)
    (known : rule ∈ allCanonicalRules) :
    ¬Drops token rule := by
  intro drops
  have effective := isEffectiveDisableToken_of_drops known drops
  rw [not_effective_of_flagged flagged] at effective
  contradiction

/-- The tokens that the audit leaves alone. -/
def heededTokens (ids : Option (List Text)) (disable : List Text) : List Text :=
  disable.filter fun token => (disableTokenProblem token ids).isNone

theorem mem_heededTokens {disable : List Text} :
    token ∈ heededTokens ids disable ↔ token ∈ disable ∧ disableTokenProblem token ids = none := by
  rw [heededTokens, List.mem_filter, Option.isNone_iff_eq_none]

/-- What no flagged token has is not lost with the flagged tokens. -/
theorem exists_heededTokens_iff {disable : List Text} {has : Text → Prop}
    (inert : ∀ token ∈ disable, disableTokenProblem token ids ≠ none → ¬has token) :
    (∃ token ∈ heededTokens ids disable, has token) ↔ ∃ token ∈ disable, has token := by
  constructor
  · rintro ⟨token, mem, own⟩
    exact ⟨token, (mem_heededTokens.mp mem).1, own⟩
  · rintro ⟨token, mem, own⟩
    have heeded : disableTokenProblem token ids = none := by
      by_contra flagged
      exact inert token mem flagged own
    exact ⟨token, mem_heededTokens.mpr ⟨mem, heeded⟩, own⟩

/-- A test that no flagged token passes does not see the flagged tokens. -/
theorem any_heededTokens (disable : List Text) {test : Text → Bool}
    (inert : ∀ token ∈ disable, disableTokenProblem token ids ≠ none → test token = false) :
    (heededTokens ids disable).any test = disable.any test := by
  rw [Bool.eq_iff_iff, List.any_eq_true, List.any_eq_true]
  apply exists_heededTokens_iff
  intro token mem flagged
  rw [inert token mem flagged]
  exact Bool.false_ne_true

theorem suppresses_heededTokens (ids : Option (List Text)) (disable : List Text)
    (known : rule ∈ allCanonicalRules) :
    (SuppressSet.fromTokens (heededTokens ids disable)).suppresses rule =
      (SuppressSet.fromTokens disable).suppresses rule := by
  rw [Bool.eq_iff_iff, SuppressSet.fromTokens_suppresses_iff, SuppressSet.fromTokens_suppresses_iff]
  apply and_congr_right
  intro _
  apply exists_heededTokens_iff
  exact fun token _ flagged => not_drops_of_flagged flagged known

theorem disableTokenProblem_preEval (ids : Option (List Text)) :
    disableTokenProblem preEvalFileNotFound ids = none := by
  have effective : isEffectiveDisableToken preEvalFileNotFound = false := by decide +kernel
  have reserved : (preEvalFileNotFound ∈ reservedRunLevelIds ||
      reservedRunLevelFamilies.any fun f => under f preEvalFileNotFound) = false := by decide +kernel
  have plugin : Text.stripPrefix "plugin.".toList preEvalFileNotFound = none := by decide +kernel
  have inert : isInertBuiltinToken preEvalFileNotFound = false := by decide +kernel
  have engine : isNonCheckEngineToken preEvalFileNotFound = true := by decide +kernel
  simp only [disableTokenProblem, effective, reserved, plugin, inert, engine, Bool.false_eq_true, if_false,
    Bool.not_true]

theorem configDisablesPreEval_heededTokens (ids : Option (List Text)) (disable : List Text) :
    configDisablesPreEval (heededTokens ids disable) preEvalFileNotFound =
      configDisablesPreEval disable preEvalFileNotFound := by
  apply any_heededTokens
  intro token _ flagged
  have effective := not_effective_of_flagged flagged
  simp only [isEffectiveDisableToken, Bool.or_eq_false_iff, decide_eq_false_iff_not] at effective
  rcases effective with ⟨⟨⟨⟨notAll, notFamily⟩, -⟩, -⟩, -⟩
  have notRow : token ≠ preEvalFileNotFound := by
    rintro rfl
    exact flagged (disableTokenProblem_preEval ids)
  simp only [notAll, notFamily, notRow, decide_false, Bool.false_and, Bool.or_false]

theorem under_append (name rest : Text) : under name (name ++ '.' :: rest) = true := by
  unfold under
  rw [Text.stripPrefix_append]
  simp

theorem under_self (name : Text) : under name name = true := by
  simp [under]

/-- No plugin has the name of a row of the run. -/
theorem not_reserved (rest : Text) :
    ("plugin.".toList ++ rest ∈ reservedRunLevelIds ||
      reservedRunLevelFamilies.any fun f => under f ("plugin.".toList ++ rest)) = false := by
  rfl

/-- A token that names a configured plugin, or a row of it, is not flagged. -/
theorem disableTokenProblem_plugin {id : Text} (mem : ∀ known ∈ ids, id ∈ known) (rest : Text)
    (own : under id rest = true) : disableTokenProblem ("plugin.".toList ++ rest) ids = none := by
  have likely (reason : Text) : pluginTokenProblem reason rest ids = none := by
    cases ids with
    | none => rfl
    | some known =>
        have emits : plausibleId rest known = true := List.any_eq_true.mpr ⟨id, mem known rfl, own⟩
        rw [pluginTokenProblem, if_pos emits]
  have plugin : Text.stripPrefix "plugin.".toList ("plugin.".toList ++ rest) = some rest :=
    Text.stripPrefix_append _ _
  cases effective : isEffectiveDisableToken ("plugin.".toList ++ rest) with
  | true => simp only [disableTokenProblem, effective, if_true]
  | false =>
      simp only [disableTokenProblem, effective, not_reserved, plugin, likely, Bool.false_eq_true, if_false]

theorem configDisablesPluginRow_heededTokens (disable : List Text) {row : PluginRow}
    (own : PluginRow.OfPlugin ids row) :
    configDisablesPluginRow (heededTokens ids disable) row.sourceFamily row.ruleId =
      configDisablesPluginRow disable row.sourceFamily row.ruleId := by
  rcases own with ⟨id, mem, message, severity, rfl⟩
  unfold configDisablesPluginRow
  apply congrArg (and _)
  apply any_heededTokens
  intro token _ flagged
  have notFamily : token ≠ "plugin.".toList ++ id := by
    rintro rfl
    exact flagged (disableTokenProblem_plugin mem id (under_self id))
  have notRow : token ≠ "plugin.".toList ++ id ++ ".load-error".toList := by
    have dotted : ".load-error".toList = '.' :: "load-error".toList := by simp
    have below := under_append id "load-error".toList
    intro same
    rw [same, List.append_assoc, dotted] at flagged
    exact flagged (disableTokenProblem_plugin mem _ below)
  change (decide (token = "plugin.".toList ++ id) ||
    decide (token = "plugin.".toList ++ id ++ ".load-error".toList)) = false
  rw [decide_eq_false notFamily, decide_eq_false notRow, Bool.or_false]

end Tokens

/-! ## Keys -/

section Keys

variable {present : List Text} {ids : Option (List Text)} {key rule : Text}

/-- The overrides that the audit leaves alone. -/
def heededOverrides (present : List Text) (ids : Option (List Text))
    (overrides : List (Text × ResolvedSeverity)) : List (Text × ResolvedSeverity) :=
  overrides.filter fun entry => (overrideProblem present ids entry.1).isNone

theorem lookup_heededOverrides (overrides : List (Text × ResolvedSeverity))
    (heeded : overrideProblem present ids key = none) :
    (heededOverrides present ids overrides).lookup key = overrides.lookup key := by
  induction overrides with
  | nil => rfl
  | cons entry overrides ih =>
      rcases entry with ⟨other, severity⟩
      unfold heededOverrides at ih ⊢
      by_cases same : key = other
      · subst same
        rw [List.filter_cons_of_pos (by rw [heeded]; rfl), List.lookup_cons_self, List.lookup_cons_self]
      · have differ : (key == other) = false := beq_false_of_ne same
        rw [List.filter_cons]
        split
        · rw [List.lookup_cons, List.lookup_cons, differ, ih]
        · rw [List.lookup_cons, differ, ih]

/-- A key that the audit passes because `disable:` would heed it. -/
def effectiveKey (key : Text) : Bool :=
  key ≠ "all".toList && (legacyAlias key).isNone && isEffectiveDisableToken key

/-- A key that the audit passes because its row is made outside the rules. -/
def engineKey (key : Text) : Bool :=
  key ≠ "all".toList && (legacyAlias key).isNone && (Text.stripPrefix "plugin.".toList key).isNone &&
    !"plugin_loader.".toList.isPrefixOf key && !isInertBuiltinToken key && isNonCheckEngineToken key

theorem overrideProblem_of_effectiveKey (effective : effectiveKey key = true) :
    overrideProblem present ids key = none := by
  simp only [effectiveKey, Bool.and_eq_true, decide_eq_true_eq, Option.isNone_iff_eq_none] at effective
  rcases effective with ⟨⟨notAll, noAlias⟩, effective⟩
  rw [overrideProblem, noAlias]
  simp only [overrideKeyProblem, if_neg notAll, effective, if_true]

theorem overrideProblem_of_engineKey (engine : engineKey key = true) :
    overrideProblem present ids key = none := by
  simp only [engineKey, Bool.and_eq_true, decide_eq_true_eq, Option.isNone_iff_eq_none,
    Bool.not_eq_true'] at engine
  rcases engine with ⟨⟨⟨⟨⟨notAll, noAlias⟩, noPlugin⟩, noLoader⟩, known⟩, engine⟩
  rw [overrideProblem, noAlias]
  simp only [overrideKeyProblem, if_neg notAll, noPlugin, noLoader, known, engine, Bool.not_true,
    Bool.false_and, Bool.false_eq_true, if_false, ite_self]

/-- The audit passes the rule and its family. -/
def Passed (present : List Text) (ids : Option (List Text)) (rule : Text) : Prop :=
  overrideProblem present ids rule = none ∧
    ∀ fam, family rule = some fam → overrideProblem present ids fam = none

theorem passed_of_keys (own : (effectiveKey rule || engineKey rule) = true)
    (ofFamily : ((family rule).all fun fam => effectiveKey fam || engineKey fam) = true) :
    Passed present ids rule := by
  have passes {key : Text} (kind : (effectiveKey key || engineKey key) = true) :
      overrideProblem present ids key = none := by
    rcases Bool.or_eq_true_iff.mp kind with effective | engine
    · exact overrideProblem_of_effectiveKey effective
    · exact overrideProblem_of_engineKey engine
  refine ⟨passes own, fun fam named => ?_⟩
  rw [named] at ofFamily
  exact passes ofFamily

/-- The rules that a severity is looked up for. -/
def resolvedRules : List Text :=
  preEvalFileNotFound :: (allCanonicalRules ++ conformanceRules)

theorem passed_of_resolved (resolved : rule ∈ resolvedRules) : Passed present ids rule := by
  have all : (resolvedRules.all fun rule => (effectiveKey rule || engineKey rule) &&
      (family rule).all fun fam => effectiveKey fam || engineKey fam) = true := by
    decide +kernel
  have both := List.all_eq_true.mp all rule resolved
  rw [Bool.and_eq_true] at both
  exact passed_of_keys both.1 both.2

theorem resolve_heededOverrides (overrides bleedingEdge : List (Text × ResolvedSeverity))
    (authored : ResolvedSeverity) (profile : Profile) (resolved : rule ∈ resolvedRules) :
    resolve rule authored profile (heededOverrides present ids overrides) bleedingEdge =
      resolve rule authored profile overrides bleedingEdge := by
  have passed : Passed present ids rule := passed_of_resolved resolved
  have same : lookupOverride rule (heededOverrides present ids overrides) = lookupOverride rule overrides := by
    unfold lookupOverride
    rw [lookup_heededOverrides overrides passed.1]
    cases named : family rule with
    | none => rfl
    | some fam => rw [Option.bind_some, Option.bind_some, lookup_heededOverrides overrides (passed.2 fam named)]
  rw [resolve, same, ← resolve]

end Keys

/-! ## The run -/

/-- The configuration without what the audit flags. -/
def Settings.heeded (present : List Text) (ids : Option (List Text)) (settings : Settings) : Settings :=
  { settings with
    disable := heededTokens ids settings.disable
    severityOverrides := heededOverrides present ids settings.severityOverrides }

/-- The settings with the rows and the lines of the loaded plugins. -/
def Settings.withPlugins (settings : Settings) (resolution : PluginResolution) : Settings :=
  { settings with
    loadErrors := resolution.loadErrors
    emitted := resolution.emitted
    pluginStderr := resolution.stderr }

section Run

variable {Tree Ast Interner Harvest Project : Type} {E : Engine Tree Ast Interner Harvest Project}
  {answers : Sidecar.FoldableCall → Option Types.Scalar} {settings : Settings} {present : List Text}
  {ids : Option (List Text)}

theorem mem_resolvedRules {rule : Text} (known : rule ∈ allCanonicalRules) : rule ∈ resolvedRules :=
  List.mem_cons_of_mem _ (List.mem_append_left _ known)

theorem voidRuleActive_heeded : (settings.heeded present ids).voidRuleActive = settings.voidRuleActive := by
  have known : "static.value-use.void".toList ∈ allCanonicalRules := by decide +kernel
  unfold Settings.voidRuleActive
  rw [Settings.heeded, resolve_heededOverrides _ _ _ _ (mem_resolvedRules known)]

theorem restamp_heeded {diag : Rules.Diagnostic} (known : diag.ruleId ∈ allCanonicalRules) :
    (settings.heeded present ids).restamp diag = settings.restamp diag := by
  unfold Settings.restamp
  rw [Settings.heeded]
  dsimp only
  rw [suppresses_heededTokens ids settings.disable known,
    resolve_heededOverrides _ _ _ _ (mem_resolvedRules known)]

theorem stage3_heeded (canonical : E.Canonical) (project : Project) (file : Prepared Ast) :
    (stage3 E (settings.heeded present ids) project file).run answers =
      (stage3 E settings project file).run answers := by
  have same : diagnose E (settings.heeded present ids) project file = diagnose E settings project file := by
    unfold diagnose laterPasses
    rw [voidRuleActive_heeded]
  rw [run_stage3, run_stage3, same]
  cases made : (diagnose E settings project file).run answers with
  | error msg => rfl
  | ok diags =>
      have known : ∀ diag ∈ diags ++ E.suppressionMarkerDiagnostics file.comments,
          diag.ruleId ∈ allCanonicalRules := by
        intro diag mem
        rcases List.mem_append.mp mem with mem | mem
        · exact canonical.diagnose made diag mem
        · exact canonical.markers _ diag mem
      have reports : report E (settings.heeded present ids) file diags = report E settings file diags := by
        unfold report
        apply List.filterMap_congr
        intro entry kept
        rcases List.mem_map.mp (List.mem_of_mem_filter kept) with ⟨diag, mem, rfl⟩
        rw [restamp_heeded (known diag mem)]
      dsimp only [Stage3.ofUnwinding]
      rw [reports]

theorem runRows_heeded : runRows E (settings.heeded present ids) = runRows E settings := by
  have rows : preEvalRow E (settings.heeded present ids) = preEvalRow E settings := by
    funext entry
    unfold preEvalRow
    rw [Settings.heeded]
    dsimp only
    rw [configDisablesPreEval_heededTokens, resolve_heededOverrides _ _ _ _ List.mem_cons_self]
  unfold runRows
  rw [rows]
  rfl

theorem emittedRows_heeded (own : ∀ row ∈ settings.emitted, PluginRow.OfPlugin ids row) :
    emittedRows (settings.heeded present ids) = emittedRows settings := by
  unfold emittedRows
  rw [Settings.heeded]
  congr 1
  apply List.filter_congr
  intro row mem
  rw [configDisablesPluginRow_heededTokens settings.disable (own row mem)]

theorem conformanceRows_heeded (canonical : E.Canonical) :
    conformanceRows E (settings.heeded present ids) = conformanceRows E settings := by
  unfold conformanceRows
  rw [Settings.heeded]
  dsimp only
  split
  · apply List.filterMap_congr
    intro f mem
    have resolved : f.ruleId ∈ resolvedRules :=
      List.mem_cons_of_mem _ (List.mem_append_right _ (canonical.conformance f mem))
    unfold conformanceRow
    dsimp only
    rw [resolve_heededOverrides _ _ _ _ resolved]
  · rfl

theorem streamed_heeded (canonical : E.Canonical) (own : ∀ row ∈ settings.emitted, PluginRow.OfPlugin ids row)
    (items : List WorkItem) :
    streamed E answers (settings.heeded present ids) items = streamed E answers settings items := by
  have findings : itemFindings E answers (settings.heeded present ids) = itemFindings E answers settings := by
    funext project item
    unfold itemFindings
    simp only [stage3_heeded canonical]
  have lines : panicLine? E answers (settings.heeded present ids) = panicLine? E answers settings := by
    funext project item
    unfold panicLine?
    simp only [stage3_heeded canonical]
    rfl
  unfold streamed
  rw [runRows_heeded, emittedRows_heeded own, conformanceRows_heeded canonical, findings, lines]
  rfl

end Run

theorem canonical_sampleEngine : sampleEngine.Canonical where
  analyze := by
    intro ast interner project answers diags next made diag mem
    have rule : diag.ruleId = "call.undefined-method".toList := by
      have given : (if (answers sampleFold).isSome then [sampleDiagnostic, mutedDiagnostic]
          else [mutedDiagnostic]) = diags :=
        congrArg Prod.fst (Except.ok.inj made)
      rw [← given] at mem
      split at mem
      · rcases List.mem_pair.mp mem with rfl | rfl <;> rfl
      · rw [List.mem_singleton.mp mem]
        rfl
    rw [rule]
    decide +kernel
  shadowed := by
    intro ast project source diags made diag mem
    rw [← Except.ok.inj made] at mem
    exact absurd mem List.not_mem_nil
  void := by
    intro ast interner project diags made diag mem
    rw [← Except.ok.inj made] at mem
    exact absurd mem List.not_mem_nil
  guards := by
    intro diags ast kept made diag mem
    rwa [← Except.ok.inj made] at mem
  markers := fun _ diag mem => absurd mem List.not_mem_nil
  conformance := fun f mem => absurd mem List.not_mem_nil

/-- A misspelt rule, a plugin that is not there, a row of the run, a legacy alias and a wildcard. -/
def misspelt : Settings :=
  { sampleSettings .balanced with
    disable := ["call.undefiend-method", "plugin.rails", "load-error", "call.wrong-arity"].map String.toList
    severityOverrides := [("undefined-method".toList, .off), ("all".toList, .off), ("flow".toList, .error)] }

def plainTexts : Texts Int where
  number n := (toString n).toList
  debug text := ['"'] ++ text ++ ['"']

/-- The plugin whose schema file is missing. -/
def recordPlugin : List (Config.Value Int) :=
  [.string "rigor-activerecord".toList]

example : heededTokens (configuredPluginIds plainTexts recordPlugin) misspelt.disable =
    ["call.wrong-arity".toList] := by
  decide +kernel

end Rigor.Cli.Check
