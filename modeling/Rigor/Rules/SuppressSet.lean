import Rigor.Rules.ShadowedRescue
import Rigor.Rules.Suppression

/-!
# Rule tokens

`suppression.rs` expands the tokens of `# rigor:disable` comments and of the `disable:` key into the
rules that they drop, and drops a file's diagnostics by them.
-/

namespace Rigor.Rules.Suppression

/-! ## The tables -/

/-- `INTERNAL_ERROR_RULE`. -/
def internalErrorRule : Text :=
  "internal-error".toList

/-- `RULE_FAMILIES`. -/
def ruleFamilies : List Text :=
  ["call", "flow", "assert", "dump", "def", "global", "suppression", "static", "effect"].map String.toList

/-- `IMPLEMENTED_RULES`. -/
def implementedRules : List Text :=
  ["call.undefined-method", "call.wrong-arity", "call.argument-type-mismatch",
    "call.possible-nil-receiver", "call.unresolved-toplevel", "flow.dead-assignment",
    "def.override-visibility-reduced", "flow.always-raises", "flow.unreachable-branch",
    "flow.always-truthy-condition", "flow.duplicate-hash-key", "flow.return-in-ensure",
    "call.raise-non-exception", "flow.shadowed-rescue-clause", "suppression.unknown-rule",
    "suppression.empty", "suppression.unknown-marker", "def.ivar-write-mismatch",
    "static.value-use.void"].map String.toList

/-- `ALL_CANONICAL_RULES`. -/
def allCanonicalRules : List Text :=
  ["call.undefined-method", "call.self-undefined-method", "call.unresolved-toplevel",
    "call.wrong-arity", "call.argument-type-mismatch", "call.possible-nil-receiver",
    "call.raise-non-exception", "dump.type", "assert.type-mismatch", "flow.always-raises",
    "flow.unreachable-branch", "def.return-type-mismatch", "def.method-visibility-mismatch",
    "def.override-visibility-reduced", "def.override-return-widened", "def.override-param-narrowed",
    "def.ivar-write-mismatch", "flow.dead-assignment", "flow.always-truthy-condition",
    "flow.unreachable-clause", "flow.duplicate-hash-key", "flow.return-in-ensure",
    "flow.shadowed-rescue-clause", "suppression.unknown-rule", "suppression.empty",
    "suppression.unknown-marker", "static.value-use.void", "effect.envelope-exceeded",
    "effect.liskov-widened", "effect.unknown-label", "effect.annotations-unchecked",
    "rbs.contradicting-signature", "global.write-type-mismatch", "global.readonly-write",
    "call.deprecated-ruby2-keywords"].map String.toList

/-- The rows of `legacy_alias`. -/
def legacyAliases : List (Text × Text) :=
  [("undefined-method", "call.undefined-method"),
    ("self-undefined-method", "call.self-undefined-method"),
    ("wrong-arity", "call.wrong-arity"),
    ("argument-type-mismatch", "call.argument-type-mismatch"),
    ("possible-nil-receiver", "call.possible-nil-receiver"),
    ("dump-type", "dump.type"),
    ("assert-type", "assert.type-mismatch"),
    ("always-raises", "flow.always-raises"),
    ("unreachable-branch", "flow.unreachable-branch"),
    ("method-visibility-mismatch", "def.method-visibility-mismatch"),
    ("ivar-write-mismatch", "def.ivar-write-mismatch"),
    ("dead-assignment", "flow.dead-assignment"),
    ("always-truthy-condition", "flow.always-truthy-condition"),
    ("unreachable-clause", "flow.unreachable-clause"),
    ("raise-non-exception", "call.raise-non-exception"),
    ("duplicate-hash-key", "flow.duplicate-hash-key"),
    ("return-in-ensure", "flow.return-in-ensure"),
    ("shadowed-rescue-clause", "flow.shadowed-rescue-clause")].map
      fun row => (row.1.toList, row.2.toList)

def legacyAlias (token : Text) : Option Text :=
  legacyAliases.lookup token

/-- `PRE_EVAL_RULES`. -/
def preEvalRules : List Text :=
  ["pre-eval.parse-error", "pre-eval.file-not-found", "pre-eval.duplicate-declaration"].map String.toList

/-- `NON_CHECK_DIAGNOSTIC_FAMILIES`. -/
def nonCheckDiagnosticFamilies : List Text :=
  ["rbs_extended", "dynamic", "rbs", "pre-eval", "plugin", "plugin_trust"].map String.toList

/-- `NON_CHECK_DIAGNOSTIC_IDS`. -/
def nonCheckDiagnosticIds : List Text :=
  ["configuration-error", "load-error", "pool-degraded", "runtime-error",
    "source-rbs-synthesis-failed", "source-rbs-annotation-not-honoured"].map String.toList

/-! ## What the audits say of a token -/

/-- The part of a token before its first dot. -/
def tokenFamily (token : Text) : Text :=
  token.takeWhile (· ≠ '.')

def isInertBuiltinToken (token : Text) : Bool :=
  let family := tokenFamily token
  if family ∉ ruleFamilies then false
  else if token = family then false
  else token ∉ allCanonicalRules

def isEffectiveDisableToken (token : Text) : Bool :=
  token = "all".toList || token = "pre-eval".toList || (legacyAlias token).isSome ||
    token ∈ ruleFamilies || token ∈ allCanonicalRules

def isNonCheckEngineToken (token : Text) : Bool :=
  token ∈ nonCheckDiagnosticIds || tokenFamily token ∈ nonCheckDiagnosticFamilies

def knownSuppressionToken (token : Text) : Bool :=
  if token = "all".toList then true
  else if token ∈ allCanonicalRules ∨ (legacyAlias token).isSome ∨ token ∈ ruleFamilies ∨
      token ∈ nonCheckDiagnosticIds then true
  else
    match Text.splitOnce '.' token with
    | some (family, _) => family ∈ nonCheckDiagnosticFamilies
    | none => false

def configDisablesPreEval (disable : List Text) (rule : Text) : Bool :=
  disable.any fun token =>
    token = "all".toList || token = rule || (token = "pre-eval".toList && rule ∈ preEvalRules)

def configDisablesPluginRow (disable : List Text) (sourceFamily ruleId : Text) : Bool :=
  "plugin.".toList.isPrefixOf sourceFamily &&
    disable.any fun token => token = sourceFamily || token = ruleId

/-! ## The sets -/

/-- The `rules` are a set: their order and repetitions are not looked at. -/
structure SuppressSet where
  all : Bool
  rules : List Text

namespace SuppressSet

/-- `SuppressSet::default`. -/
def empty : SuppressSet where
  all := false
  rules := []

def insert (set : SuppressSet) (rule : Text) : SuppressSet :=
  { set with rules := rule :: set.rules }

def absorbToken (set : SuppressSet) (token : Text) : SuppressSet :=
  if token = "all".toList then { set with all := true }
  else
    match legacyAlias token with
    | some canonical => set.insert canonical
    | none =>
        if token ∈ ruleFamilies then
          implementedRules.foldl
            (fun set rule => if (token ++ ['.']).isPrefixOf rule then set.insert rule else set) set
        else set.insert token

/-- `absorb_tokens`, `from_tokens`. -/
def absorbTokens (tokens : List Text) (set : SuppressSet) : SuppressSet :=
  tokens.foldl absorbToken set

def fromTokens (tokens : List Text) : SuppressSet :=
  absorbTokens tokens empty

def suppresses (set : SuppressSet) (rule : Text) : Bool :=
  if rule = internalErrorRule then false else set.all || rule ∈ set.rules

end SuppressSet

/-! ## The filter of a file -/

/-- A comment: its line, the offset of its `#` and its text. -/
structure Comment where
  line : Nat
  offset : Nat
  text : Text

/-- The sets of the lines and the set of the file. -/
structure Suppressions where
  lines : List (Nat × SuppressSet)
  file : SuppressSet

namespace Suppressions

/-- `line_suppressions.get(line)`, an absent line having the empty set. -/
def atLine (suppressions : Suppressions) (line : Nat) : SuppressSet :=
  (suppressions.lines.lookup line).getD .empty

def absorbComment (suppressions : Suppressions) (comment : Comment) : Suppressions :=
  match directiveTokens .disableFile comment.text with
  | some tokens => { suppressions with file := suppressions.file.absorbTokens tokens }
  | none =>
      match directiveTokens .disable comment.text with
      | some tokens =>
          { suppressions with
            lines := (comment.line, (suppressions.atLine comment.line).absorbTokens tokens) ::
              suppressions.lines }
      | none => suppressions

end Suppressions

def parseSuppressionComments (comments : List Comment) : Suppressions :=
  comments.foldl Suppressions.absorbComment { lines := [], file := .empty }

/-- The predicate of `filter_suppressed`. -/
def kept (suppressions : Suppressions) (line : Nat) (rule : Text) : Bool :=
  if rule = internalErrorRule then true
  else !suppressions.file.suppresses rule && !(suppressions.atLine line).suppresses rule

def filterSuppressed (diagnostics : List (Nat × Diagnostic)) (comments : List Comment) :
    List (Nat × Diagnostic) :=
  diagnostics.filter fun entry => kept (parseSuppressionComments comments) entry.1 entry.2.ruleId

/-! ## What a token drops -/

/-- The rules that a token stands for. -/
def Drops (token rule : Text) : Prop :=
  if token = "all".toList then True
  else
    match legacyAlias token with
    | some canonical => rule = canonical
    | none =>
        if token ∈ ruleFamilies then rule ∈ implementedRules ∧ (token ++ ['.']) <+: rule
        else rule = token

/-- A token that drops a rule of the catalogue is heeded by the audit of the configuration. -/
theorem isEffectiveDisableToken_of_drops {token rule : Text} (known : rule ∈ allCanonicalRules)
    (drops : Drops token rule) : isEffectiveDisableToken token = true := by
  simp only [isEffectiveDisableToken, Bool.or_eq_true, decide_eq_true_eq]
  unfold Drops at drops
  split at drops
  · rename_i all
    exact Or.inl (Or.inl (Or.inl (Or.inl all)))
  · split at drops
    · rename_i canonical found
      exact Or.inl (Or.inl (Or.inr (by rw [found]; rfl)))
    · split at drops
      · rename_i family
        exact Or.inl (Or.inr family)
      · exact Or.inr (drops ▸ known)

/-- And it is known to the audit of the comments. -/
theorem knownSuppressionToken_of_drops {token rule : Text} (known : rule ∈ allCanonicalRules)
    (drops : Drops token rule) : knownSuppressionToken token = true := by
  unfold knownSuppressionToken
  unfold Drops at drops
  split at drops
  · rename_i all
    rw [if_pos all]
  · rename_i notAll
    rw [if_neg notAll, if_pos]
    split at drops
    · rename_i canonical found
      exact Or.inr (Or.inl (by rw [found]; rfl))
    · split at drops
      · rename_i family
        exact Or.inr (Or.inr (Or.inl family))
      · exact Or.inl (drops ▸ known)

namespace SuppressSet

/-- The set drops the rule, the sentinel left aside. -/
def Has (set : SuppressSet) (rule : Text) : Prop :=
  set.all = true ∨ rule ∈ set.rules

theorem suppresses_iff {set : SuppressSet} {rule : Text} :
    set.suppresses rule = true ↔ rule ≠ internalErrorRule ∧ set.Has rule := by
  unfold suppresses Has
  by_cases sentinel : rule = internalErrorRule
  · simp [sentinel]
  · simp [sentinel]

theorem not_empty_has (rule : Text) : ¬empty.Has rule := by
  simp [empty, Has]

@[simp]
theorem insert_has {set : SuppressSet} {rule other : Text} :
    (set.insert other).Has rule ↔ set.Has rule ∨ rule = other := by
  simp only [Has, insert, List.mem_cons]
  tauto

theorem foldl_insert_has {p : Text → Bool} {set : SuppressSet} {rules : List Text} {rule : Text} :
    (rules.foldl (fun set rule => if p rule then set.insert rule else set) set).Has rule ↔
      set.Has rule ∨ rule ∈ rules ∧ p rule = true := by
  induction rules generalizing set with
  | nil => simp
  | cons other rules ih =>
      rw [List.foldl_cons, ih]
      by_cases inside : p other = true
      · rw [if_pos inside, insert_has, List.mem_cons]
        constructor
        · rintro ((has | rfl) | later)
          · exact Or.inl has
          · exact Or.inr ⟨Or.inl rfl, inside⟩
          · exact Or.inr ⟨Or.inr later.1, later.2⟩
        · rintro (has | ⟨rfl | later, holds⟩)
          · exact Or.inl (Or.inl has)
          · exact Or.inl (Or.inr rfl)
          · exact Or.inr ⟨later, holds⟩
      · rw [if_neg inside, List.mem_cons]
        constructor
        · rintro (has | later)
          · exact Or.inl has
          · exact Or.inr ⟨Or.inr later.1, later.2⟩
        · rintro (has | ⟨rfl | later, holds⟩)
          · exact Or.inl has
          · exact absurd holds inside
          · exact Or.inr ⟨later, holds⟩

theorem absorbToken_has {set : SuppressSet} {token rule : Text} :
    (set.absorbToken token).Has rule ↔ set.Has rule ∨ Drops token rule := by
  unfold absorbToken Drops
  by_cases wildcard : token = "all".toList
  · simp [wildcard, Has]
  · rw [if_neg wildcard, if_neg wildcard]
    cases legacyAlias token with
    | some canonical => exact insert_has
    | none =>
        by_cases family : token ∈ ruleFamilies
        · rw [if_pos family, if_pos family, foldl_insert_has, List.isPrefixOf_iff_prefix]
        · simp only [if_neg family, insert_has]

/-- A set has what it had and what its tokens drop. -/
theorem absorbTokens_has {set : SuppressSet} {tokens : List Text} {rule : Text} :
    (set.absorbTokens tokens).Has rule ↔ set.Has rule ∨ ∃ token ∈ tokens, Drops token rule := by
  unfold absorbTokens
  induction tokens generalizing set with
  | nil => simp
  | cons token tokens ih =>
      rw [List.foldl_cons, ih, absorbToken_has, List.exists_mem_cons_iff, or_assoc]

theorem fromTokens_suppresses_iff (tokens : List Text) (rule : Text) :
    (fromTokens tokens).suppresses rule = true ↔
      rule ≠ internalErrorRule ∧ ∃ token ∈ tokens, Drops token rule := by
  rw [suppresses_iff, fromTokens, absorbTokens_has, or_iff_right (not_empty_has rule)]

end SuppressSet

/-! ## What the comments drop -/

/-- A comment drops a rule everywhere, or on its own line. -/
def Comment.Drops (comment : Comment) (line : Nat) (rule : Text) : Prop :=
  match directiveTokens .disableFile comment.text with
  | some tokens => ∃ token ∈ tokens, Suppression.Drops token rule
  | none =>
      match directiveTokens .disable comment.text with
      | some tokens => comment.line = line ∧ ∃ token ∈ tokens, Suppression.Drops token rule
      | none => False

/-- The sets of a file drop the rule on the line. -/
def Suppressions.Has (suppressions : Suppressions) (line : Nat) (rule : Text) : Prop :=
  suppressions.file.Has rule ∨ (suppressions.atLine line).Has rule

theorem absorbComment_has {suppressions : Suppressions} {comment : Comment} {line : Nat} {rule : Text} :
    (suppressions.absorbComment comment).Has line rule ↔
      suppressions.Has line rule ∨ comment.Drops line rule := by
  unfold Suppressions.absorbComment Comment.Drops Suppressions.Has
  cases directiveTokens .disableFile comment.text with
  | some tokens =>
      simp only [SuppressSet.absorbTokens_has, Suppressions.atLine]
      exact or_right_comm
  | none =>
      cases directiveTokens .disable comment.text with
      | none => simp
      | some tokens =>
          by_cases here : comment.line = line
          · subst here
            simp only [Suppressions.atLine, List.lookup_cons_self, Option.getD_some,
              SuppressSet.absorbTokens_has, true_and]
            exact or_assoc.symm
          · have other : (line == comment.line) = false := by simpa using Ne.symm here
            simp only [Suppressions.atLine, List.lookup_cons, other, here, false_and, or_false]

theorem parseSuppressionComments_has (comments : List Comment) (line : Nat) (rule : Text) :
    (parseSuppressionComments comments).Has line rule ↔
      ∃ comment ∈ comments, comment.Drops line rule := by
  suffices folded : ∀ start : Suppressions, (comments.foldl Suppressions.absorbComment start).Has line rule ↔
      start.Has line rule ∨ ∃ comment ∈ comments, comment.Drops line rule by
    rw [parseSuppressionComments, folded]
    simp [Suppressions.Has, Suppressions.atLine, SuppressSet.not_empty_has]
  induction comments with
  | nil => simp
  | cons comment comments ih =>
      intro start
      rw [List.foldl_cons, ih, absorbComment_has, List.exists_mem_cons_iff, or_assoc]

/-- A file keeps the sentinel, and every diagnostic that none of its comments drops. -/
theorem kept_iff {comments : List Comment} {line : Nat} {rule : Text} :
    kept (parseSuppressionComments comments) line rule = true ↔
      rule = internalErrorRule ∨ ∀ comment ∈ comments, ¬comment.Drops line rule := by
  unfold kept
  by_cases sentinel : rule = internalErrorRule
  · simp [sentinel]
  · have dropped := parseSuppressionComments_has comments line rule
    rw [if_neg sentinel, or_iff_right sentinel, Bool.and_eq_true, Bool.not_eq_true', Bool.not_eq_true',
      ← Bool.not_eq_true, ← Bool.not_eq_true, SuppressSet.suppresses_iff, SuppressSet.suppresses_iff,
      and_iff_right sentinel, and_iff_right sentinel, ← not_or]
    rw [Suppressions.Has] at dropped
    rw [dropped]
    simp

theorem configDisablesPreEval_mono {disable more : List Text} (included : disable ⊆ more) {rule : Text}
    (disables : configDisablesPreEval disable rule = true) : configDisablesPreEval more rule = true := by
  rw [configDisablesPreEval, List.any_eq_true] at disables ⊢
  rcases disables with ⟨token, mem, matches_⟩
  exact ⟨token, included mem, matches_⟩

theorem configDisablesPluginRow_mono {disable more : List Text} (included : disable ⊆ more)
    {sourceFamily ruleId : Text} (disables : configDisablesPluginRow disable sourceFamily ruleId = true) :
    configDisablesPluginRow more sourceFamily ruleId = true := by
  rw [configDisablesPluginRow, Bool.and_eq_true, List.any_eq_true] at disables ⊢
  rcases disables with ⟨family, token, mem, matches_⟩
  exact ⟨family, token, included mem, matches_⟩

theorem SuppressSet.fromTokens_suppresses_mono {disable more : List Text} (included : disable ⊆ more)
    {rule : Text} (suppresses : (fromTokens disable).suppresses rule = true) :
    (fromTokens more).suppresses rule = true := by
  rw [fromTokens_suppresses_iff] at suppresses ⊢
  rcases suppresses with ⟨real, token, mem, drops⟩
  exact ⟨real, token, included mem, drops⟩

end Rigor.Rules.Suppression
