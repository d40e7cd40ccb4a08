import Rigor.Cli.Diff.Command

/-!
# Diffing against a saved run

The output of an earlier check, saved and read again, against the findings of a later one: what `diff` prints and
how it exits, in terms of the findings of both runs.
-/

namespace Rigor.Cli.Diff

open Rigor.Cli.Check Rigor.Cli.Json Rigor.Library.Json Rigor.Rules Rigor.Rust

/-! ## Maps -/

theorem lookup_insertMember (key sought : Text) (value : Value) (members : List (Text × Value)) :
    (insertMember key value members).lookup sought =
      if sought == key then some value else members.lookup sought := by
  induction members with
  | nil =>
    rw [insertMember, List.lookup_cons]
    cases sought == key <;> rfl
  | cons member rest ih =>
    rcases member with ⟨held, old⟩
    rw [insertMember]
    cases order : Text.cmp key held with
    | lt => simp only [List.lookup_cons]; split <;> simp_all
    | eq =>
      have same : key = held := Std.LawfulEqCmp.eq_of_compare order
      simp only [List.lookup_cons, same]
      split <;> simp_all
    | gt =>
      have other : key ≠ held := by
        rintro rfl
        rw [@Std.ReflCmp.compare_self _ Text.cmp] at order
        cases order
      simp only [List.lookup_cons, ih]
      by_cases here : sought = held
      · simp [here, other.symm]
      · simp [beq_eq_false_iff_ne.mpr here]

/-- Members of other names leave what is found under a name. -/
theorem lookup_insertAll {sought : Text} (members map : List (Text × Value))
    (other : ∀ member ∈ members, member.1 ≠ sought) :
    (members.foldl (fun map member => insertMember member.1 member.2 map) map).lookup sought =
      map.lookup sought := by
  induction members generalizing map with
  | nil => rfl
  | cons member members ih =>
    have apart : (sought == member.1) = false := beq_eq_false_iff_ne.mpr (other member List.mem_cons_self).symm
    rw [List.foldl_cons, ih _ (fun later mem => other later (List.mem_cons_of_mem _ mem)), lookup_insertMember,
      apart]
    rfl

/-! ## Rows -/

/-- A row as a map: what is read of a saved row, and what is built of a later finding. -/
def rowMap (finding : Finding) (rule : Option Text) : Value :=
  .obj (mapOf ((fields finding rule).map fun field => (field.1, field.2.value)))

theorem diagnosticValue_eq (finding : Finding) :
    diagnosticValue finding = rowMap finding (qualifiedRule finding.diag) := by
  unfold diagnosticValue rowMap fields laterFields
  cases qualifiedRule finding.diag with
  | _ =>
    cases finding.diag.receiverType with
    | _ =>
      cases finding.diag.methodName with
      | _ =>
        cases catalog finding.diag.ruleId with
        | _ => rfl

/-- The scalars of the fields that identify a row. -/
def keyScalar (finding : Finding) (rule : Option Text) : List (Text × Scalar) :=
  [("path".toList, .text finding.path),
    ("line".toList, .nat (lineCol finding.source finding.diag.startOffset).1),
    ("column".toList, .nat (lineCol finding.source finding.diag.startOffset).2),
    ("rule".toList, ruleScalar rule),
    ("source_family".toList, .text finding.diag.sourceFamily),
    ("message".toList, .text finding.diag.message)]

/-- The fields after those that are always there. -/
def optionalFields (finding : Finding) : List RowField :=
  presentField "receiver_type" finding.diag.receiverType ++
    (presentField "method_name" finding.diag.methodName ++
      (presentField "evidence_tier" ((catalog finding.diag.ruleId).map RuleEntry.evidenceTier) ++
        presentField "documentation_url" ((catalog finding.diag.ruleId).map RuleEntry.documentationUrl)))

theorem name_of_mem_presentField {key : String} {value : Option Text} {field : RowField}
    (mem : field ∈ presentField key value) : field.1 = key.toList := by
  rcases List.mem_map.mp mem with ⟨text, -, rfl⟩
  rfl

/-- A field that may be left out has none of the identifying names. -/
theorem name_of_mem_optionalFields {finding : Finding} {field : RowField}
    (mem : field ∈ optionalFields finding) : field.1 ∉ keyFields := by
  have others : ["receiver_type", "method_name", "evidence_tier", "documentation_url"].all
      (fun name => name.toList ∉ keyFields) = true := by decide +kernel
  simp only [List.all_cons, List.all_nil, Bool.and_true, Bool.and_eq_true, decide_eq_true_eq] at others
  simp only [optionalFields, List.mem_append] at mem
  rcases mem with mem | mem | mem | mem
  · rw [name_of_mem_presentField mem]
    exact others.1
  · rw [name_of_mem_presentField mem]
    exact others.2.1
  · rw [name_of_mem_presentField mem]
    exact others.2.2.1
  · rw [name_of_mem_presentField mem]
    exact others.2.2.2

theorem get_rowMap (finding : Finding) (rule : Option Text) {key : Text} {scalar : Scalar}
    (mem : (key, scalar) ∈ keyScalar finding rule) : get (rowMap finding rule) key = some scalar.value := by
  have named : key ∈ keyFields := by
    have names : (keyScalar finding rule).map Prod.fst = keyFields := rfl
    rw [← names]
    exact List.mem_map.mpr ⟨_, mem, rfl⟩
  have split : fields finding rule = [("path".toList, .text finding.path),
      ("line".toList, .nat (lineCol finding.source finding.diag.startOffset).1),
      ("column".toList, .nat (lineCol finding.source finding.diag.startOffset).2),
      ("severity".toList, .text (severityText finding.diag.severity)), ("rule".toList, ruleScalar rule),
      ("source_family".toList, .text finding.diag.sourceFamily),
      ("message".toList, .text finding.diag.message)] ++ optionalFields finding := rfl
  have rest : ∀ member ∈ (optionalFields finding).map fun field => (field.1, field.2.value),
      member.1 ≠ key := by
    intro member inRest same
    rcases List.mem_map.mp inRest with ⟨field, inFields, rfl⟩
    exact name_of_mem_optionalFields inFields (same ▸ named)
  rw [rowMap, get, mapOf, split, List.map_append, List.foldl_append, lookup_insertAll _ _ rest]
  simp only [List.map_cons, List.map_nil, List.foldl_cons, List.foldl_nil, lookup_insertMember]
  simp only [keyScalar, List.mem_cons, Prod.mk.injEq, List.not_mem_nil, or_false] at mem
  rcases mem with ⟨rfl, rfl⟩ | ⟨rfl, rfl⟩ | ⟨rfl, rfl⟩ | ⟨rfl, rfl⟩ | ⟨rfl, rfl⟩ |
    ⟨rfl, rfl⟩
  all_goals rfl

/-! ## What is asked of `serde_json` -/

/-- A number that a `u64` holds. -/
def ScalarFits : Scalar → Prop
  | .nat n => n < 2 ^ 64
  | _ => True

def membersOf (row : List RowField) : List (Text × Value) :=
  row.map fun field => (field.1, field.2.value)

/-- It reads an array of flat rows, the members of each as a map, and it prints a scalar as JSON.
`serde_json::from_str` accepts every JSON text with blanks around it, keeps the members of an object in a
`BTreeMap` (its feature `preserve_order` is off) and an unsigned integer that a `u64` holds as it is;
`Value::to_string` writes compact JSON.  A row has no other numbers than its line and column, and no member
that is an array or an object, so that neither floats nor a limit on the nesting come in. -/
structure Serde.Faithful (serde : Serde) : Prop where
  reads : ∀ (rows : List (List RowField)), (∀ row ∈ rows, ∀ field ∈ row, ScalarFits field.2) →
    ∀ {t w : Text}, Spells (.arr (rows.map fun row => .obj (membersOf row))) t → Blank w →
      serde.fromStr (t ++ w) = .ok (.arr (rows.map fun row => .obj (mapOf (membersOf row))))
  prints : ∀ scalar : Scalar, ScalarFits scalar → Spells scalar.value (serde.toString scalar.value)

theorem value_injective {a b : Scalar} (same : a.value = b.value) : a = b := by
  cases a with
  | text s => cases b <;> simp_all [Scalar.value]
  | nat n =>
    cases b with
    | nat m =>
      have digits : Nat.toDigits 10 n = Nat.toDigits 10 m := Value.number.inj same
      rw [← @Nat.ofDigitChars_ten_toDigits n, digits, Nat.ofDigitChars_ten_toDigits]
    | _ => simp [Scalar.value] at same
  | null => cases b <;> simp_all [Scalar.value]

theorem toString_inj {serde : Serde} (faithful : serde.Faithful) {a b : Scalar} (aFits : ScalarFits a)
    (bFits : ScalarFits b) : serde.toString a.value = serde.toString b.value ↔ a = b := by
  constructor
  · intro same
    apply value_injective
    exact spells_unique (faithful.prints a aFits) (same ▸ faithful.prints b bFits)
  · exact fun same => congrArg (fun scalar : Scalar => serde.toString scalar.value) same

theorem text_of_spells_number {x t : Text} (spells : Spells (.number x) t) : t = x := by
  cases spells
  rfl

/-! ### Lines and columns fit -/

theorem lineColLoop_le (clamped : Nat) (bytes : List UInt8) (i : Nat) (state : Nat × Nat) :
    (lineColLoop clamped bytes i state).1 ≤ state.1 + bytes.length := by
  induction bytes generalizing i state with
  | nil => exact Nat.le_refl _
  | cons b bytes ih =>
    rcases state with ⟨line, start⟩
    rw [lineColLoop]
    split
    · exact Nat.le_add_right _ _
    · apply (ih _ _).trans
      split
      · simp only [List.length_cons]
        omega
      · simp only [List.length_cons]
        omega

/-- The source of a finding is a string of the program. -/
def Small (finding : Finding) : Prop :=
  Text.len finding.source < 2 ^ 63

theorem lineCol_lt {finding : Finding} (small : Small finding) :
    (lineCol finding.source finding.diag.startOffset).1 < 2 ^ 64 ∧
      (lineCol finding.source finding.diag.startOffset).2 < 2 ^ 64 := by
  have loop := lineColLoop_le (min finding.diag.startOffset (Text.len finding.source))
    (Text.bytes finding.source) 0 (1, 0)
  have size : (Text.bytes finding.source).length < 2 ^ 63 := small
  have cut : min finding.diag.startOffset (Text.len finding.source) ≤ Text.len finding.source :=
    Nat.min_le_right _ _
  have bound : Text.len finding.source < 2 ^ 63 := small
  unfold lineCol
  split
  · simp
  · simp only
    constructor
    · omega
    · omega

theorem fits_of_mem_fields {finding : Finding} (small : Small finding) {rule : Option Text} {field : RowField}
    (mem : field ∈ fields finding rule) : ScalarFits field.2 := by
  have texts : ∀ key value, ∀ field ∈ presentField key value, ScalarFits field.2 := by
    intro key value field inside
    rcases List.mem_map.mp inside with ⟨text, -, rfl⟩
    trivial
  have ruleFits : ScalarFits (ruleScalar rule) := by cases rule <;> trivial
  simp only [fields, laterFields, List.mem_cons, List.mem_append, List.not_mem_nil, or_false] at mem
  rcases mem with rfl | (rfl | rfl | rfl | rfl | rfl | rfl) | mem | mem | mem | mem
  · trivial
  · exact (lineCol_lt small).1
  · exact (lineCol_lt small).2
  · trivial
  · exact ruleFits
  · trivial
  · trivial
  · exact texts _ _ _ mem
  · exact texts _ _ _ mem
  · exact texts _ _ _ mem
  · exact texts _ _ _ mem

theorem fits_of_mem_keyScalar {finding : Finding} (small : Small finding) {rule : Option Text}
    {entry : Text × Scalar} (mem : entry ∈ keyScalar finding rule) : ScalarFits entry.2 := by
  have ruleFits : ScalarFits (ruleScalar rule) := by cases rule <;> trivial
  simp only [keyScalar, List.mem_cons, List.not_mem_nil, or_false] at mem
  rcases mem with rfl | rfl | rfl | rfl | rfl | rfl
  · trivial
  · exact (lineCol_lt small).1
  · exact (lineCol_lt small).2
  · exact ruleFits
  · trivial
  · trivial

/-! ## Identities -/

/-- A later finding has the same identity as a saved one, which shows its rule without the family. -/
def Alike (later saved : Finding) : Prop :=
  later.path = saved.path ∧
    lineCol later.source later.diag.startOffset = lineCol saved.source saved.diag.startOffset ∧
    qualifiedRule later.diag = shownRule saved ∧ later.diag.sourceFamily = saved.diag.sourceFamily ∧
    later.diag.message = saved.diag.message

instance (later saved : Finding) : Decidable (Alike later saved) :=
  inferInstanceAs (Decidable (_ ∧ _ ∧ _ ∧ _ ∧ _))

theorem ruleScalar_injective {first second : Option Text} (same : ruleScalar first = ruleScalar second) :
    first = second := by
  cases first <;> cases second <;> simp_all [ruleScalar]

theorem keyScalar_eq_iff (later saved : Finding) :
    keyScalar later (qualifiedRule later.diag) = keyScalar saved (shownRule saved) ↔ Alike later saved := by
  constructor
  · intro same
    simp only [keyScalar, List.cons.injEq, Prod.mk.injEq, true_and, Scalar.text.injEq, Scalar.nat.injEq,
      and_true] at same
    rcases same with ⟨path, line, column, rule, family, message⟩
    exact ⟨path, Prod.ext line column, ruleScalar_injective rule, family, message⟩
  · rintro ⟨path, place, rule, family, message⟩
    simp only [keyScalar, path, place, rule, family, message]

theorem identityFor_rowMap (serde : Serde) (finding : Finding) (rule : Option Text) :
    identityFor serde (rowMap finding rule) =
      (keyScalar finding rule).map fun entry => serde.toString entry.2.value := by
  have names : (keyScalar finding rule).map Prod.fst = keyFields := rfl
  rw [identityFor, ← names, List.map_map]
  apply List.map_congr_left
  intro entry mem
  simp only [Function.comp, get_rowMap finding rule mem, Option.getD_some]

/-- Two rows have one identity when the texts of all identifying fields are the same. -/
theorem identityFor_eq_iff {serde : Serde} (faithful : serde.Faithful) {later saved : Finding}
    (laterSmall : Small later) (savedSmall : Small saved) :
    identityFor serde (rowMap later (qualifiedRule later.diag)) =
      identityFor serde (rowMap saved (shownRule saved)) ↔ Alike later saved := by
  rw [identityFor_rowMap, identityFor_rowMap, ← keyScalar_eq_iff]
  constructor
  · intro same
    have laterRule : ScalarFits (ruleScalar (qualifiedRule later.diag)) := by
      cases qualifiedRule later.diag <;> trivial
    have savedRule : ScalarFits (ruleScalar (shownRule saved)) := by cases shownRule saved <;> trivial
    simp only [keyScalar, List.map_cons, List.map_nil, List.cons.injEq, and_true] at same
    rcases same with ⟨path, line, column, rule, family, message⟩
    have samePath := (@toString_inj serde faithful (.text _) (.text _) trivial trivial).mp path
    have sameLine := (@toString_inj serde faithful (.nat _) (.nat _) (lineCol_lt laterSmall).1
      (lineCol_lt savedSmall).1).mp line
    have sameColumn := (@toString_inj serde faithful (.nat _) (.nat _) (lineCol_lt laterSmall).2
      (lineCol_lt savedSmall).2).mp column
    have sameRule := (toString_inj faithful laterRule savedRule).mp rule
    have sameFamily := (@toString_inj serde faithful (.text _) (.text _) trivial trivial).mp family
    have sameMessage := (@toString_inj serde faithful (.text _) (.text _) trivial trivial).mp message
    unfold keyScalar
    rw [samePath, sameLine, sameColumn, sameRule, sameFamily, sameMessage]
  · exact fun same => congrArg _ same

/-! ## The delta -/

/-- The later findings that no saved one is like. -/
def gained (saved findings : List Finding) : List Finding :=
  findings.filter fun later => ∀ row ∈ saved, ¬Alike later row

/-- The saved findings that no later one is like. -/
def resolved (saved findings : List Finding) : List Finding :=
  saved.filter fun row => ∀ later ∈ findings, ¬Alike later row

/-- A finding is like itself when its row shows the rule as a whole. -/
theorem alike_self_iff (finding : Finding) :
    Alike finding finding ↔ shownRule finding = qualifiedRule finding.diag := by
  constructor
  · exact fun alike => alike.2.2.1.symm
  · exact fun same => ⟨rfl, rfl, same.symm, rfl, rfl⟩

theorem shownRule_builtin {finding : Finding} (own : finding.diag.sourceFamily = builtin) :
    shownRule finding = qualifiedRule finding.diag := by
  unfold shownRule
  cases qualifiedRule finding.diag with
  | none => rfl
  | some rule => simp only [Option.map_some, jsonRuleName, own, if_true]

/-- Nothing has changed between a run without plugins and its saved output. -/
theorem gained_self {findings : List Finding}
    (own : ∀ finding ∈ findings, finding.diag.sourceFamily = builtin) :
    gained findings findings = [] ∧ resolved findings findings = [] := by
  have like : ∀ finding ∈ findings, Alike finding finding := by
    intro finding mem
    exact (alike_self_iff finding).mpr (shownRule_builtin (own finding mem))
  constructor
  · rw [gained, List.filter_eq_nil_iff]
    intro later mem
    simp only [decide_eq_true_eq, not_forall, not_not]
    exact ⟨later, mem, like later mem⟩
  · rw [resolved, List.filter_eq_nil_iff]
    intro row mem
    simp only [decide_eq_true_eq, not_forall, not_not]
    exact ⟨row, mem, like row mem⟩

/-- The row of a finding as it is read back from the saved output. -/
def savedRow (finding : Finding) : Value :=
  rowMap finding (shownRule finding)

section Delta

variable {serde : Serde} (faithful : serde.Faithful) {saved findings : List Finding}
  (small : ∀ finding ∈ saved ++ findings, Small finding)

include faithful small in
theorem computeDiff_saved :
    computeDiff serde (saved.map savedRow) (findings.map diagnosticValue) =
      ⟨(gained saved findings).map diagnosticValue, (resolved saved findings).map savedRow⟩ := by
  have alike : ∀ later ∈ findings, ∀ row ∈ saved,
      identityFor serde (diagnosticValue later) = identityFor serde (savedRow row) ↔ Alike later row := by
    intro later inFindings row inSaved
    rw [diagnosticValue_eq]
    exact identityFor_eq_iff faithful (small later (List.mem_append_right _ inFindings))
      (small row (List.mem_append_left _ inSaved))
  rw [computeDiff, gained, resolved, List.filter_map, List.filter_map]
  congr 2
  · apply List.filter_congr
    intro later mem
    simp only [Function.comp, List.map_map, List.mem_map, not_exists, not_and, decide_eq_decide]
    exact forall_congr' fun row => forall_congr' fun inSaved =>
      not_congr (eq_comm.trans (alike later mem row inSaved))
  · apply List.filter_congr
    intro row mem
    simp only [Function.comp, List.map_map, List.mem_map, not_exists, not_and, decide_eq_decide]
    exact forall_congr' fun later => forall_congr' fun inFindings =>
      not_congr (alike later inFindings row mem)

/-! ## The lines -/

/-- The plain text of a scalar. -/
def scalarText : Scalar → Text
  | .text s => s
  | .nat n => Nat.toDigits 10 n
  | .null => []

/-- The line of a finding, with the rule that its row shows behind the family. -/
def shownLine (finding : Finding) (rule : Option Text) : Text :=
  let place := lineCol finding.source finding.diag.startOffset
  let family := finding.diag.sourceFamily
  let name := if family = [] ∨ family = builtin then rule.getD [] else family ++ ['.'] ++ rule.getD []
  finding.path ++ [':'] ++ Nat.toDigits 10 place.1 ++ [':'] ++ Nat.toDigits 10 place.2 ++ " [".toList ++ name ++
    "] ".toList ++ finding.diag.message

include faithful in
theorem plain_scalar {scalar : Scalar} (fits : ScalarFits scalar) :
    plain serde (some scalar.value) = scalarText scalar := by
  cases scalar with
  | text s => rfl
  | nat n => exact text_of_spells_number (faithful.prints (.nat n) fits)
  | null => rfl

include faithful in
theorem plain_rowMap {finding : Finding} (fits : Small finding) {rule : Option Text} {key : Text}
    {scalar : Scalar} (mem : (key, scalar) ∈ keyScalar finding rule) :
    plain serde (get (rowMap finding rule) key) = scalarText scalar := by
  rw [get_rowMap finding rule mem]
  exact plain_scalar faithful (fits_of_mem_keyScalar fits mem)

theorem scalarText_ruleScalar (rule : Option Text) : scalarText (ruleScalar rule) = rule.getD [] := by
  cases rule <;> rfl

include faithful in
theorem renderDiagnostic_rowMap {finding : Finding} (fits : Small finding) (rule : Option Text) :
    renderDiagnostic serde (rowMap finding rule) = shownLine finding rule := by
  have shown : ∀ entry ∈ keyScalar finding rule,
      plain serde (get (rowMap finding rule) entry.1) = scalarText entry.2 :=
    fun entry mem => plain_rowMap faithful fits mem
  simp only [keyScalar, List.forall_mem_cons, scalarText_ruleScalar] at shown
  rcases shown with ⟨path, line, column, named, family, message, -⟩
  simp only [renderDiagnostic, qualifiedRuleFor, path, line, column, named, family, message]
  rfl

/-! ## Loading -/

include faithful in
theorem loadDiagnostics_saved (fits : ∀ finding ∈ saved, Small finding) {files : Files} {path w : Text}
    (there : files.isFile path = true) (held : files.readToString path = .ok (jsonDocument saved ++ w))
    (blank : Blank w) : loadDiagnostics serde files path = .ok (saved.map savedRow) := by
  have rows : ∀ row ∈ saved.map fun finding => fields finding (shownRule finding),
      ∀ field ∈ row, ScalarFits field.2 := by
    intro row mem field inside
    rcases List.mem_map.mp mem with ⟨finding, inSaved, rfl⟩
    exact fits_of_mem_fields (fits finding inSaved) inside
  have document : Spells (.arr ((saved.map fun finding => fields finding (shownRule finding)).map fun row =>
      .obj (membersOf row))) (jsonDocument saved) := by
    rw [List.map_map]
    exact spells_jsonDocument saved
  have read := faithful.reads _ rows document blank
  rw [List.map_map] at read
  unfold loadDiagnostics
  rw [there, held]
  simp only [Bool.not_true, Bool.false_eq_true, if_false, read]
  rfl

/-! ## The command -/

/-- The lines of a run against saved findings. -/
def report (path : Text) (saved findings : List Finding) : List Text :=
  ["# diff against ".toList ++ path ++ " (".toList ++ Nat.toDigits 10 saved.length ++ " baseline / ".toList ++
      Nat.toDigits 10 findings.length ++ " current)".toList] ++
    (gained saved findings).map (fun finding =>
      "+ NEW   ".toList ++ shownLine finding (qualifiedRule finding.diag)) ++
    (resolved saved findings).map (fun finding => "- FIXED ".toList ++ shownLine finding (shownRule finding)) ++
    [[], Nat.toDigits 10 (gained saved findings).length ++ " new, ".toList ++
      Nat.toDigits 10 (resolved saved findings).length ++ " fixed".toList]

include faithful small in
theorem writeDiffText_saved (path : Text) :
    writeDiffText serde ⟨(gained saved findings).map diagnosticValue, (resolved saved findings).map savedRow⟩
      path saved.length findings.length = report path saved findings := by
  have new : (gained saved findings).map (fun finding =>
        "+ NEW   ".toList ++ renderDiagnostic serde (diagnosticValue finding)) =
      (gained saved findings).map fun finding =>
        "+ NEW   ".toList ++ shownLine finding (qualifiedRule finding.diag) := by
    apply List.map_congr_left
    intro finding mem
    have fits := small finding (List.mem_append_right _ (List.mem_filter.mp mem).1)
    rw [diagnosticValue_eq, renderDiagnostic_rowMap faithful fits]
  have fixed : (resolved saved findings).map (fun finding =>
        "- FIXED ".toList ++ renderDiagnostic serde (savedRow finding)) =
      (resolved saved findings).map fun finding =>
        "- FIXED ".toList ++ shownLine finding (shownRule finding) := by
    apply List.map_congr_left
    intro finding mem
    have fits := small finding (List.mem_append_left _ (List.mem_filter.mp mem).1)
    rw [savedRow, renderDiagnostic_rowMap faithful fits]
  simp only [writeDiffText, report, List.map_map, Function.comp_def, new, fixed, List.length_map]

include faithful small in
/--
The output of an earlier check is saved, and the command is run on later findings: it lists the later findings
that no saved one is like and the saved ones that no later one is like, both in their order, with their counts,
and it succeeds when nothing was gained.
-/
theorem cmdDiff_saved {files : Files} {run : List Text → Except Outcome (List Finding)} {path w : Text}
    {roots : List Text} (there : files.isFile path = true)
    (held : files.readToString path = .ok (jsonDocument saved ++ w)) (blank : Blank w)
    (found : run roots = .ok findings) :
    cmdDiff serde files run ⟨false, none, path :: roots⟩ =
      ⟨if (gained saved findings).isEmpty then 0 else 1, report path saved findings, []⟩ := by
  have loaded := loadDiagnostics_saved faithful
    (fun finding mem => small finding (List.mem_append_left _ mem)) there held blank
  simp only [cmdDiff, currentRows, loaded, found, computeDiff_saved faithful small, List.length_map,
    Bool.false_eq_true, if_false, writeDiffText_saved faithful small, List.isEmpty_map]

end Delta

/-! ### Two runs -/

/-- The members of each row in the order of their names. -/
def sortedRow : Value → Value
  | .obj members => .obj (mapOf members)
  | other => other

/-- Scalars and arrays of flat rows. -/
def scalarSerde : Serde where
  fromStr text :=
    match Library.Json.parse text with
    | some (.arr rows) => .ok (.arr (rows.map sortedRow))
    | some other => .ok (sortedRow other)
    | none => .error "expected value".toList
  toString
    | .str s => jsonString s
    | .number text => text
    | .bool true => "true".toList
    | .bool false => "false".toList
    | _ => "null".toList
  toStringPretty _ := []

theorem faithful_scalarSerde : scalarSerde.Faithful where
  reads := by
    intro rows fits t w spells blank
    have read : Library.Json.parse (t ++ w) = some (.arr (rows.map fun row => .obj (membersOf row))) :=
      parse_of_spells blank_nil spells blank
    simp only [scalarSerde, read, List.map_map]
    rfl
  prints := by
    intro scalar fits
    cases scalar with
    | text s => exact spells_scalar (.text s)
    | nat n => exact spells_scalar (.nat n)
    | null => exact spells_scalar .null

/-- A finding on the second line of a source. -/
def findingOf (diag : Rules.Diagnostic) : Finding :=
  ⟨0, "a.rb".toList, "x = 1\nx.foo\n".toList, diag⟩

def undefinedMethod : Finding :=
  findingOf (plainDiagnostic "call.undefined-method".toList 8 11 "undefined method `foo' for 1".toList .error
    builtin)

def loadError : Finding :=
  findingOf (plainDiagnostic "plugin_loader.load-error".toList 0 0 "cannot load".toList .error
    "plugin_loader".toList)

def parseError : Finding :=
  findingOf (plainDiagnostic ruleless 6 7 "unexpected end".toList .error builtin)

def laterFindings : List Finding :=
  [undefinedMethod, loadError, parseError]

theorem small_findingOf (diag : Rules.Diagnostic) : Small (findingOf diag) := by
  have length : Text.len "x = 1\nx.foo\n".toList = 12 := by decide +kernel
  unfold Small findingOf
  rw [length]
  decide

theorem small_laterFindings : ∀ finding ∈ [undefinedMethod, loadError] ++ laterFindings, Small finding := by
  intro finding mem
  simp only [laterFindings, List.cons_append, List.nil_append, List.mem_cons, List.not_mem_nil, or_false] at mem
  rcases mem with rfl | rfl | rfl | rfl | rfl
  all_goals exact small_findingOf _

def savedOutput : Files where
  isFile _ := true
  readToString _ := .ok (jsonDocument [undefinedMethod, loadError] ++ ['\n'])

theorem blank_newline : Blank ['\n'] := by
  intro c mem
  rw [List.mem_singleton.mp mem]
  rfl

/-- The family of a plugin row is cut from the saved rule alone, so that the row is gained and resolved. -/
example : (gained [undefinedMethod, loadError] laterFindings).map (fun finding => finding.diag.message) =
      [loadError.diag.message, parseError.diag.message] ∧
    (resolved [undefinedMethod, loadError] laterFindings).map (fun finding => finding.diag.message) =
      [loadError.diag.message] := by
  decide +kernel

theorem cmdDiff_saved_plugin :
    cmdDiff scalarSerde savedOutput (fun _ => .ok laterFindings) ⟨false, none, ["saved.json".toList]⟩ =
      ⟨if (gained [undefinedMethod, loadError] laterFindings).isEmpty then 0 else 1,
        report "saved.json".toList [undefinedMethod, loadError] laterFindings, []⟩ :=
  cmdDiff_saved faithful_scalarSerde small_laterFindings rfl rfl blank_newline rfl

end Rigor.Cli.Diff
