import Rigor.Cli.Baseline.Commands
import Rigor.Cli.Baseline.Tidy
import Rigor.Library.Runs

/-!
# The life of a baseline file

What the subcommands keep, whatever is edited between them: a file that they wrote loads again, pruning is
invisible to `check`, and once a baseline silences its run it goes on to do so while findings only go away.
-/

namespace Rigor.Cli.Commands

open Baseline Rigor.Library.Runs Rigor.Library.StableSort Rigor.Rust

variable {R : RegexEngine} {U : UnicodeTables} {path : Text}

/-! ## Files of this program -/

/-- Rows that can be written, no two of one key. -/
structure Sound (U : UnicodeTables) (baseline : Baseline R) : Prop where
  written : ∀ b ∈ baseline.buckets, Written U b
  distinct : (baseline.buckets.map Bucket.key).Nodup

/-- The file holds this baseline. -/
def Holds (U : UnicodeTables) (ws : Workspace) (baseline : Baseline R) : Prop :=
  ws.file = some (.ok (baseline.toYaml U)) ∧ Sound U baseline

theorem Holds.load {ws : Workspace} {baseline : Baseline R} (holds : Holds U ws baseline) :
    load U path ws.file = .ok baseline := by
  rw [holds.1]
  exact parse_toYaml U baseline path holds.2.written

theorem Sound.without {baseline : Baseline R} (sound : Sound U baseline) (remove : List (Bucket R)) :
    Sound U (baseline.without remove) where
  written := fun b mem => sound.written b (List.mem_of_mem_filter mem)
  distinct := sound.distinct.sublist (List.filter_sublist.map _)

/-- The entries are tidy, and a count of them fits. -/
structure TidyRun (entries : List Entry) : Prop where
  tidy : ∀ entry ∈ entries, TidyEntry entry
  few : entries.length < 2 ^ 63

theorem sound_fromDiagnostics (literals : R.MatchesLiterals) {entries : List Entry} (tidy : TidyRun entries)
    (mode : MatchMode) : Sound U (fromDiagnostics entries mode : Baseline R) where
  written := written_fromDiagnostics U literals mode tidy.tidy tidy.few
  distinct := by
    rw [buckets_fromDiagnostics, List.map_map]
    have keys : (recordedKeys mode entries).eraseDups.map (Bucket.key ∘ fun key =>
        (bucketOfKey key ((recordedKeys mode entries).count key) : Bucket R)) =
        (recordedKeys mode entries).eraseDups := by
      simp [Function.comp_def]
    rw [keys]
    exact Library.Grouping.nodup_eraseDups _

/-! ## What a command does to the file -/

/-- A workspace with another baseline in its file. -/
def Workspace.rewrite (U : UnicodeTables) (ws : Workspace) (baseline : Baseline R) : Workspace :=
  { ws with file := some (.ok (baseline.toYaml U)) }

@[simp] theorem Workspace.rewrite_targetRubyFailure (ws : Workspace) (baseline : Baseline R) :
    (ws.rewrite U baseline).targetRubyFailure = ws.targetRubyFailure :=
  rfl

/-- Writing leaves the workspace as it is, or writes what the analysis gives. -/
theorem writeBaseline_cases (ws : Workspace) (mode : MatchMode) (verb : Text) :
    (writeBaseline (R := R) U path ws mode verb).1 = ws ∨
      ∃ a, ws.analysis = .ok a ∧ (writeBaseline (R := R) U path ws mode verb).1 =
        ws.rewrite U (fromDiagnostics (a.entries ws.cwd) mode : Baseline R) := by
  rcases ws with ⟨file, e | _, code | a, cwd⟩
  · exact Or.inl rfl
  · exact Or.inr ⟨a, rfl, rfl⟩
  · exact Or.inl rfl
  · exact Or.inl rfl

theorem baselineRegenerate_fst {ws : Workspace} {a : Analysis} (analysed : ws.analysis = .ok a)
    (writable : ws.writeError = none) (mode : MatchMode) :
    (baselineRegenerate U path R ws mode).1 =
      ws.rewrite U (fromDiagnostics (a.entries ws.cwd) mode : Baseline R) := by
  rcases ws with ⟨file, writeError, analysis, cwd, failure⟩
  dsimp only at analysed writable
  rw [analysed, writable]
  rfl

/-- An audit has loaded the file and has an analysis. -/
theorem of_audited {ws : Workspace} {verb : Text} {baseline : Baseline R} {a : Analysis}
    (audit : audited U path R ws verb = .ok (baseline, a)) :
    load U path ws.file = .ok baseline ∧ ws.analysis = .ok a := by
  rcases ws with ⟨file, writeError, analysis, cwd, failure⟩
  unfold audited loadBaselineStrict at audit
  dsimp only at audit ⊢
  cases file with
  | none => simp at audit
  | some content =>
      rw [if_neg (by simp)] at audit
      cases loaded : load (R := R) U path (some content) with
      | error e => simp [loaded] at audit
      | ok other =>
          rw [loaded] at audit
          cases analysis with
          | error code => simp at audit
          | ok a' =>
              dsimp only at audit
              split at audit
              · simp at audit
              · rw [Except.ok.injEq, Prod.mk.injEq] at audit
                rw [audit.1, audit.2]
                exact ⟨rfl, rfl⟩

/-- Pruning leaves the workspace as it is, or drops the cleared rows of the file that it has loaded. -/
theorem baselinePrune_cases (R : RegexEngine) (U : UnicodeTables) (path : Text) (ws : Workspace)
    (dryRun : Bool) :
    (baselinePrune U path R ws dryRun).1 = ws ∨
      ∃ (baseline : Baseline R) (a : Analysis), load U path ws.file = .ok baseline ∧ ws.analysis = .ok a ∧
        ∃ remove : List (Bucket R), remove.Perm (baseline.clearedBuckets (a.entries ws.cwd)) ∧
          (baselinePrune U path R ws dryRun).1 = ws.rewrite U (baseline.without remove) := by
  rcases ws with ⟨file, writeError, analysis, cwd, failure⟩
  unfold baselinePrune
  cases audit : audited U path R ⟨file, writeError, analysis, cwd, failure⟩ "prune".toList with
  | error refused => exact Or.inl rfl
  | ok pair =>
      rcases pair with ⟨baseline, a⟩
      rcases of_audited audit with ⟨loaded, analysed⟩
      dsimp only
      split
      · exact Or.inl rfl
      · cases dryRun with
        | true => exact Or.inl rfl
        | false =>
            cases writeError with
            | some e => exact Or.inl rfl
            | none =>
                refine Or.inr ⟨baseline, a, loaded, analysed, _, ?_, rfl⟩
                exact (sortByKey_perm rowKey _).map _

theorem without_perm (baseline : Baseline R) {remove remove' : List (Bucket R)} (perm : remove.Perm remove') :
    baseline.without remove = baseline.without remove' := by
  unfold Baseline.without
  simp only [perm.any_eq]

theorem baselineDrift_fst (ws : Workspace) (only : Option DriftStatus) :
    (baselineDrift U path R ws only).1 = ws := by
  unfold baselineDrift
  cases audited U path R ws "drift".toList with
  | error refused => rfl
  | ok pair =>
      dsimp only
      split
      · rfl
      · rfl

/-- The mode in which a command records the run. -/
def Command.mode? : Command → Option MatchMode
  | .generate mode _ => some mode
  | .regenerate mode => some mode
  | .prune _ => none
  | .drift _ => none

/-- Everything that a command can do to the workspace. -/
theorem run_cases (R : RegexEngine) (U : UnicodeTables) (path : Text) (call : Command) (ws : Workspace) :
    (call.run U path R ws).1 = ws ∨
      (∃ mode a, call.mode? = some mode ∧ ws.analysis = .ok a ∧
        (call.run U path R ws).1 = ws.rewrite U (fromDiagnostics (a.entries ws.cwd) mode : Baseline R)) ∨
      ∃ (baseline : Baseline R) (a : Analysis), load U path ws.file = .ok baseline ∧ ws.analysis = .ok a ∧
        (call.run U path R ws).1 =
          ws.rewrite U (baseline.without (baseline.clearedBuckets (a.entries ws.cwd))) := by
  cases call with
  | generate mode force =>
      simp only [Command.run, baselineGenerate]
      split
      · exact Or.inl rfl
      · rcases writeBaseline_cases (R := R) ws mode "wrote baseline to".toList with
          same | ⟨a, analysed, written⟩
        · exact Or.inl same
        · exact Or.inr (Or.inl ⟨mode, a, rfl, analysed, written⟩)
  | regenerate mode =>
      rcases writeBaseline_cases (R := R) ws mode "regenerated baseline".toList with
        same | ⟨a, analysed, written⟩
      · exact Or.inl same
      · exact Or.inr (Or.inl ⟨mode, a, rfl, analysed, written⟩)
  | prune dryRun =>
      rcases baselinePrune_cases R U path ws dryRun with
        same | ⟨baseline, a, loaded, analysed, remove, perm, pruned⟩
      · exact Or.inl same
      · refine Or.inr (Or.inr ⟨baseline, a, loaded, analysed, pruned.trans ?_⟩)
        rw [without_perm baseline perm]
  | drift only => exact Or.inl (baselineDrift_fst ws only)

/-- What `regenerate` writes is read back as it was, with every row, count and pattern. -/
theorem load_regenerated (literals : R.MatchesLiterals) {ws : Workspace} {a : Analysis}
    (analysed : ws.analysis = .ok a) (writable : ws.writeError = none) (tidy : TidyRun (a.entries ws.cwd))
    (mode : MatchMode) :
    load U path (baselineRegenerate U path R ws mode).1.file =
      .ok (fromDiagnostics (a.entries ws.cwd) mode : Baseline R) := by
  rw [baselineRegenerate_fst analysed writable]
  exact parse_toYaml U _ path (sound_fromDiagnostics literals tidy mode).written

/-- The ASCII part of the tables. -/
def asciiTables : UnicodeTables where
  isAlphanumeric := Char.isAlphanum
  debug text := ['"'] ++ text ++ ['"']

def baselineYml : Text := ".rigor-baseline.yml".toList

/-- A misspelt method, a syntax error and a path with a blank in it. -/
def untidied : List Check.Finding :=
  [⟨0, "lib/a b.rb".toList, [], Check.plainDiagnostic "call.undefined-method".toList 0 4
      "undefined method `fo+' for String".toList .error Check.builtin⟩,
    ⟨1, "lib/c.rb".toList, [], Check.plainDiagnostic noRule 0 1 "unexpected end".toList .error Check.builtin⟩]

/-- An analysis that finds this. -/
def finds (findings : List Check.Finding) : Analysis :=
  ⟨⟨⟨findings, false, []⟩, [], true⟩, false, none, ".rigor.yml".toList⟩

def fresh : Workspace := ⟨none, none, .ok (finds untidied), none, none⟩

theorem tidyRun_untidied : TidyRun ((finds untidied).entries none) :=
  ⟨by decide, by decide⟩

theorem load_regenerated_fresh :
    load asciiTables baselineYml
        (baselineRegenerate asciiTables baselineYml literalEngine fresh .message).1.file =
      .ok (fromDiagnostics ((finds untidied).entries none) .message : Baseline literalEngine) :=
  have analysed : fresh.analysis = .ok (finds untidied) := rfl
  load_regenerated literalEngine_matchesLiterals analysed rfl tidyRun_untidied .message

/-! ## Every file loads -/

/-- What an analysis finds is tidy, whenever there is one. -/
def TidyAnalysis (cwd : Option Text) (analysis : Except Nat Analysis) : Prop :=
  ∀ a, analysis = .ok a → TidyRun (a.entries cwd)

/-- The runs of a project that starts without a baseline. -/
def project (U : UnicodeTables) (path : Text) (R : RegexEngine) : System Workspace Event where
  Initial ws := ws.file = none ∧ TidyAnalysis ws.cwd ws.analysis
  Enabled event ws :=
    match event with
    | .command _ => True
    | .edit _ analysis _ => TidyAnalysis ws.cwd analysis
  step event ws := event.apply U path R ws

/-- The file is absent, or a sound baseline. -/
structure Kept (U : UnicodeTables) (R : RegexEngine) (ws : Workspace) : Prop where
  file : ws.file = none ∨ ∃ baseline : Baseline R, Holds U ws baseline
  tidy : TidyAnalysis ws.cwd ws.analysis

theorem Kept.load {ws : Workspace} (kept : Kept U R ws) (path : Text) :
    ∃ baseline : Baseline R, load U path ws.file = .ok baseline ∧ Sound U baseline := by
  rcases kept.file with absent | ⟨baseline, holds⟩
  · rw [absent]
    exact ⟨⟨[]⟩, rfl, fun b mem => by simp at mem, List.nodup_nil⟩
  · exact ⟨baseline, holds.load, holds.2⟩

theorem Kept.apply (literals : R.MatchesLiterals) {ws : Workspace} (kept : Kept U R ws) {event : Event}
    (enabled : (project U path R).Enabled event ws) : Kept U R (event.apply U path R ws) := by
  cases event with
  | edit writeError analysis failure => exact ⟨kept.file, enabled⟩
  | command call =>
      have step := run_cases R U path call ws
      simp only [Event.apply]
      rcases step with same | ⟨mode, a, -, analysed, written⟩ | ⟨baseline, a, loaded, -, pruned⟩
      · rwa [same]
      · rw [written]
        exact ⟨Or.inr ⟨_, rfl, sound_fromDiagnostics literals (kept.tidy a analysed) mode⟩, kept.tidy⟩
      · rw [pruned]
        rcases kept.load path with ⟨baseline', loaded', sound⟩
        obtain rfl : baseline' = baseline := Except.ok.inj (loaded'.symm.trans loaded)
        exact ⟨Or.inr ⟨_, rfl, sound.without _⟩, kept.tidy⟩

theorem kept_of_reachable (literals : R.MatchesLiterals) {ws : Workspace}
    (reachable : (project U path R).Reachable ws) : Kept U R ws := by
  apply reachable.invariant (Kept U R)
  · rintro start ⟨absent, tidy⟩
    exact ⟨Or.inl absent, tidy⟩
  · intro state event enabled kept
    exact kept.apply literals enabled

/-- The baseline of what was found at first. -/
def recorded : Workspace := (baselineRegenerate asciiTables baselineYml literalEngine fresh .message).1

/-- The recorded baseline, when the misspelt method is gone. -/
def corrected : Workspace := { recorded with analysis := .ok (finds (untidied.drop 1)) }

theorem reachable_corrected : (project asciiTables baselineYml literalEngine).Reachable corrected := by
  have start : (project asciiTables baselineYml literalEngine).Reachable fresh := by
    apply System.Reachable.of_initial
    exact ⟨rfl, fun a analysed => Except.ok.inj analysed ▸ tidyRun_untidied⟩
  have anything : (project asciiTables baselineYml literalEngine).Enabled
      (.command (.regenerate .message)) fresh := trivial
  have written : (project asciiTables baselineYml literalEngine).Reachable recorded := start.step anything
  have tidy : (project asciiTables baselineYml literalEngine).Enabled
      (.edit none (.ok (finds (untidied.drop 1))) none) recorded := by
    intro a analysed
    rw [← Except.ok.inj analysed]
    exact ⟨by decide, by decide⟩
  exact written.step tidy

theorem accepted_corrected : corrected.targetRubyFailure = none := by
  have analysed : fresh.analysis = .ok (finds untidied) := rfl
  change recorded.targetRubyFailure = none
  rw [recorded, baselineRegenerate_fst analysed rfl]
  rfl

theorem silences_congr {first second : Baseline R} {entries : List Entry}
    (same : ∀ entry ∈ entries, first.claiming entry = second.claiming entry) {entry : Entry}
    (mem : entry ∈ entries) : first.silences entries entry = second.silences entries entry := by
  unfold silences
  rw [same entry mem]
  simp only [claimedCount_congr same]

/-- The rows that pruning leaves silence the same entries. -/
theorem silences_pruned {baseline : Baseline R} {entries : List Entry} {entry : Entry}
    (mem : entry ∈ entries) :
    (baseline.without (baseline.clearedBuckets entries)).silences entries entry =
      baseline.silences entries entry :=
  silences_congr (fun _ inside => claiming_without_cleared inside) mem

theorem claimedCount_pruned (baseline : Baseline R) (entries : List Entry) (key : Key) :
    (baseline.without (baseline.clearedBuckets entries)).claimedCount entries key =
      baseline.claimedCount entries key :=
  claimedCount_congr (fun _ inside => claiming_without_cleared inside) key

theorem clearedBuckets_pruned (baseline : Baseline R) (entries : List Entry) :
    (baseline.without (baseline.clearedBuckets entries)).clearedBuckets entries = [] := by
  rw [List.eq_nil_iff_forall_not_mem]
  intro b mem
  rcases mem_clearedBuckets_iff.mp mem with ⟨kept, zero⟩
  rw [buckets_without_cleared, List.mem_filter, decide_eq_true_eq] at kept
  rw [claimedCount_pruned] at zero
  exact kept.2 zero

/-- With a `target_ruby:` that is accepted, `check` goes on with the analysis. -/
theorem check_of_accepted {ws : Workspace} (accepted : ws.targetRubyFailure = none) (strict : Bool)
    (failOn : Rules.Severity) (analyzed : Check.Analyzed) :
    (ws.checkArgs U path R strict failOn).check analyzed =
      { findings := (ws.checkArgs U path R strict failOn).printed analyzed
        exit := if (ws.checkArgs U path R strict failOn).fails analyzed then 1 else 0 } := by
  have input : (ws.checkArgs U path R strict failOn).input analyzed = analyzed := by
    rw [Check.CheckArgs.input, Workspace.checkArgs, accepted]
  rw [Check.CheckArgs.check, input]

/-- What `check` prints in a workspace. -/
theorem mem_check_iff {ws : Workspace} {baseline : Baseline R} (loaded : load U path ws.file = .ok baseline)
    (accepted : ws.targetRubyFailure = none) (strict : Bool) (failOn : Rules.Severity)
    (analyzed : Check.Analyzed) {finding : Check.Finding} :
    finding ∈ ((ws.checkArgs U path R strict failOn).check analyzed).findings ↔
      (finding ∈ analyzed.report.findings ∧
          baseline.silences (analyzed.report.findings.map (entryOf ws.cwd)) (entryOf ws.cwd finding) = false) ∨
        finding ∈ analyzed.pathErrors.map (Check.PathError.finding analyzed.anyFiles) := by
  have applied : (ws.checkArgs U path R strict failOn).baseline? = some baseline := by
    simp [Check.CheckArgs.baseline?, Workspace.checkArgs, Check.CheckArgs.resolveBaselinePath, loaded,
      Except.toOption]
  rw [check_of_accepted accepted, Check.mem_printed_iff, Check.mem_applyBaseline_iff, applied]
  simp only [Option.some.injEq, forall_eq']
  rfl

/-- With a `target_ruby:` that is rejected, `check` prints its row at most. -/
theorem mem_check_of_rejected {ws : Workspace} {message : Text} (rejected : ws.targetRubyFailure = some message)
    {strict : Bool} {failOn : Rules.Severity} {analyzed : Check.Analyzed} {finding : Check.Finding}
    (mem : finding ∈ ((ws.checkArgs U path R strict failOn).check analyzed).findings) :
    finding = Check.configurationError message := by
  have input : (ws.checkArgs U path R strict failOn).input analyzed =
      { report := { findings := [Check.configurationError message], hadIoError := false, stderr := [] }
        pathErrors := []
        anyFiles := false } := by
    rw [Check.CheckArgs.input, Workspace.checkArgs, rejected]
  rw [Check.CheckArgs.check, input, Check.mem_printed_iff, Check.mem_applyBaseline_iff] at mem
  rcases mem with ⟨only, -⟩ | bad
  · exact List.mem_singleton.mp only
  · cases bad

/-- The audit fails on some row. -/
def Drifts (baseline : Baseline R) (entries : List Entry) : Prop :=
  ∃ b ∈ baseline.buckets, baseline.claimedCount entries b.key ≠ b.count

theorem statusFor_eq_within_iff {actual count : Nat} (positive : 0 < count) :
    statusFor actual count = .within ↔ actual = count := by
  unfold statusFor
  split_ifs <;> simp <;> omega

theorem strictViolation_iff {ws : Workspace} {baseline : Baseline R} (sound : Sound U baseline)
    (loaded : load U path ws.file = .ok baseline) (strict : Bool) (failOn : Rules.Severity)
    (findings : List Check.Finding) :
    (ws.checkArgs U path R strict failOn).baselineStrictViolation findings = true ↔
      Drifts baseline (findings.map (entryOf ws.cwd)) := by
  have asked : (ws.checkArgs U path R strict failOn).resolveBaselinePath = some path := rfl
  have read : (ws.checkArgs U path R strict failOn).load path = .ok baseline := loaded
  have same : findings.map (ws.checkArgs U path R strict failOn).entry = findings.map (entryOf ws.cwd) := rfl
  unfold Check.CheckArgs.baselineStrictViolation Drifts
  rw [asked]
  dsimp only
  rw [read]
  dsimp only
  rw [same, audit_eq]
  by_cases empty : baseline.buckets = []
  · simp [empty]
  · rw [if_neg (by simpa using empty), List.any_map, List.any_eq_true]
    apply exists_congr
    intro b
    apply and_congr_right
    intro mem
    simp only [Function.comp_apply, decide_eq_true_eq, ne_eq,
      statusFor_eq_within_iff (sound.written b mem).positive]

/-- `check` fails alike on the same lines, if the audit agrees. -/
theorem exit_le_of_same {ws ws' : Workspace} {strict : Bool} {failOn : Rules.Severity}
    {analyzed : Check.Analyzed} (accepted : ws.targetRubyFailure = none)
    (unchanged : ws'.targetRubyFailure = ws.targetRubyFailure)
    (same : ∀ finding, finding ∈ ((ws'.checkArgs U path R strict failOn).check analyzed).findings →
      finding ∈ ((ws.checkArgs U path R strict failOn).check analyzed).findings)
    (audit : strict = true →
      (ws'.checkArgs U path R strict failOn).baselineStrictViolation analyzed.report.findings = true →
      (ws.checkArgs U path R strict failOn).baselineStrictViolation analyzed.report.findings = true) :
    ((ws'.checkArgs U path R strict failOn).check analyzed).exit ≤
      ((ws.checkArgs U path R strict failOn).check analyzed).exit := by
  rw [check_of_accepted accepted, check_of_accepted (unchanged.trans accepted)] at same ⊢
  have fails : (ws'.checkArgs U path R strict failOn).fails analyzed = true →
      (ws.checkArgs U path R strict failOn).fails analyzed = true := by
    unfold Check.CheckArgs.fails
    simp only [Bool.or_eq_true, Bool.and_eq_true, List.any_eq_true]
    rintro (((unread | ⟨finding, mem, bad⟩) | ⟨on, bad⟩) | ⟨finding, mem, bad⟩)
    · exact Or.inl (Or.inl (Or.inl unread))
    · exact Or.inl (Or.inl (Or.inr ⟨finding, same finding mem, bad⟩))
    · exact Or.inl (Or.inr ⟨on, audit on bad⟩)
    · exact Or.inr ⟨finding, same finding mem, bad⟩
  dsimp only
  by_cases bad : (ws'.checkArgs U path R strict failOn).fails analyzed = true
  · rw [if_pos bad, if_pos (fails bad)]
  · rw [if_neg bad]
    exact Nat.zero_le _

theorem baselinePrune_dryRun (ws : Workspace) : (baselinePrune U path R ws true).1 = ws := by
  unfold baselinePrune
  cases audited U path R ws "prune".toList with
  | error refused => rfl
  | ok pair =>
      dsimp only
      split
      · rfl
      · rfl

theorem without_nil (baseline : Baseline R) : baseline.without [] = baseline := by
  unfold Baseline.without
  simp

/-- A pruned file has nothing left to prune. -/
theorem baselinePrune_pruned {ws : Workspace} {baseline : Baseline R} {a : Analysis} (sound : Sound U baseline)
    (analysed : ws.analysis = .ok a) (dryRun : Bool) :
    let pruned := baseline.without (baseline.clearedBuckets (a.entries ws.cwd))
    (baselinePrune U path R (ws.rewrite U pruned) dryRun).1 = ws.rewrite U pruned := by
  intro pruned
  rcases baselinePrune_cases R U path (ws.rewrite U pruned) dryRun with
    same | ⟨loaded, a', load, analysis, remove, perm, step⟩
  · exact same
  · have holds : Holds U (ws.rewrite U pruned) pruned := ⟨rfl, sound.without _⟩
    obtain rfl : pruned = loaded := Except.ok.inj (holds.load.symm.trans load)
    obtain rfl : a = a' := Except.ok.inj (analysed.symm.trans analysis)
    have nothing : pruned.clearedBuckets (a.entries ws.cwd) = [] := clearedBuckets_pruned baseline _
    have none : remove = [] := by
      apply List.Perm.eq_nil
      rw [← nothing]
      exact perm
    rw [step, none, without_nil]
    rfl

/-- A baseline that was recorded from a run claims every entry of the run under its own key. -/
theorem claimedKey_recorded (literals : R.MatchesLiterals) {entries : List Entry} {mode : MatchMode}
    (own : mode = .message → FragmentsAgree entries) {entry : Entry} (mem : entry ∈ entries) :
    (fromDiagnostics entries mode : Baseline R).claimedKey entry = entryKey mode entry := by
  cases mode with
  | rule => exact claimedKey_rule mem
  | message =>
      by_cases ruled : entry.2.qualifiedRule = none
      · simp [claimedKey_eq, claiming, entryKey, ruled]
      · rcases exists_first_fragment mem with ⟨first, found⟩
        rcases fragmentOf_iff.mp (List.find?_some found) with ⟨file, rule, -⟩
        rw [claimedKey_message literals entries ruled, found, Option.bind_some]
        exact (entryKey_message_eq_iff file rule ruled).mpr (own rfl entry mem ruled first found)

/-- Every entry with a rule is silenced. -/
def Quiet (baseline : Baseline R) (entries : List Entry) : Prop :=
  ∀ entry ∈ entries, entry.2.qualifiedRule ≠ none → baseline.silences entries entry = true

theorem quiet_fromDiagnostics (literals : R.MatchesLiterals) {entries : List Entry} {mode : MatchMode}
    (own : mode = .message → FragmentsAgree entries) :
    Quiet (fromDiagnostics entries mode : Baseline R) entries :=
  silencesRun_iff.mp (silencesRun_of_claimedKey_eq fun _ mem => claimedKey_recorded literals own mem)

/-- Fewer entries never fill a bucket. -/
theorem Quiet.sublist {baseline : Baseline R} {entries fewer : List Entry} (quiet : Quiet baseline entries)
    (sub : fewer.Sublist entries) : Quiet baseline fewer := by
  intro entry mem ruled
  have silent := quiet entry (sub.subset mem) ruled
  unfold silences at silent ⊢
  cases claims : baseline.claiming entry with
  | none => simp [claims] at silent
  | some b =>
      simp only [claims, decide_eq_true_eq] at silent ⊢
      exact sub.countP_le.trans silent

theorem Quiet.pruned {baseline : Baseline R} {entries : List Entry} (quiet : Quiet baseline entries) :
    Quiet (baseline.without (baseline.clearedBuckets entries)) entries := fun entry mem ruled =>
  (silences_pruned mem).trans (quiet entry mem ruled)

theorem TidyRun.sublist {entries fewer : List Entry} (tidy : TidyRun entries) (sub : fewer.Sublist entries) :
    TidyRun fewer :=
  ⟨fun entry mem => tidy.tidy entry (sub.subset mem), Nat.lt_of_le_of_lt sub.length_le tidy.few⟩

/-- The runs in which edits only make findings go away; a baseline that is recorded again in message mode is
recorded where no message is a fragment of another. -/
def shrinking (U : UnicodeTables) (path : Text) (R : RegexEngine) : System Workspace Event where
  Initial _ := True
  Enabled event ws :=
    match event with
    | .command call =>
        ∀ a, call.mode? = some .message → ws.analysis = .ok a → FragmentsAgree (a.entries ws.cwd)
    | .edit _ analysis _ => ∃ a a', ws.analysis = .ok a ∧ analysis = .ok a' ∧
        (a'.entries ws.cwd).Sublist (a.entries ws.cwd)
  step event ws := event.apply U path R ws

/-- The file is a sound baseline that silences what the analysis finds. -/
structure Settled (U : UnicodeTables) (R : RegexEngine) (ws : Workspace) (baseline : Baseline R) (a : Analysis) :
    Prop where
  holds : Holds U ws baseline
  analysed : ws.analysis = .ok a
  tidy : TidyRun (a.entries ws.cwd)
  quiet : Quiet baseline (a.entries ws.cwd)

theorem Settled.apply (literals : R.MatchesLiterals) {ws : Workspace} {baseline : Baseline R} {a : Analysis}
    (settled : Settled U R ws baseline a) {event : Event} (enabled : (shrinking U path R).Enabled event ws) :
    ∃ baseline' a', Settled U R (event.apply U path R ws) baseline' a' := by
  cases event with
  | edit writeError analysis failure =>
      rcases enabled with ⟨a₀, a', analysed, rfl, sub⟩
      obtain rfl : a = a₀ := Except.ok.inj (settled.analysed.symm.trans analysed)
      exact ⟨baseline, a', settled.holds, rfl, settled.tidy.sublist sub, settled.quiet.sublist sub⟩
  | command call =>
      simp only [Event.apply]
      rcases run_cases R U path call ws with
        same | ⟨mode, a', records, analysed, step⟩ | ⟨loaded, a', load, analysed, step⟩
      · rw [same]
        exact ⟨baseline, a, settled⟩
      · obtain rfl : a = a' := Except.ok.inj (settled.analysed.symm.trans analysed)
        have own : mode = .message → FragmentsAgree (a.entries ws.cwd) := by
          rintro rfl
          exact enabled a records analysed
        rw [step]
        exact ⟨_, a, ⟨rfl, sound_fromDiagnostics literals settled.tidy mode⟩, analysed, settled.tidy,
          quiet_fromDiagnostics literals own⟩
      · obtain rfl : a = a' := Except.ok.inj (settled.analysed.symm.trans analysed)
        obtain rfl : baseline = loaded := Except.ok.inj (settled.holds.load.symm.trans load)
        rw [step]
        exact ⟨_, a, ⟨rfl, settled.holds.2.without _⟩, analysed, settled.tidy, settled.quiet.pruned⟩

end Rigor.Cli.Commands
