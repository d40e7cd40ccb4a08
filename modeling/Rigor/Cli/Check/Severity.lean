import Rigor.Rules.ShadowedRescue

/-!
# Severity profiles

`severity.rs`: the severity of a rule is that of the user's overrides, else that of the overlay, else that
of the profile's table, else the authored one.  From `lenient` over `balanced` to `strict` no severity
falls.
-/

namespace Rigor.Cli.Check

open Rigor.Rules

inductive Profile where
  | lenient
  | balanced
  | strict
  deriving DecidableEq

/-- `Off` drops the diagnostic. -/
inductive ResolvedSeverity where
  | error
  | warning
  | info
  | off
  deriving DecidableEq

/-- `LENIENT`. -/
def lenientTable : List (String × ResolvedSeverity) :=
  [("assert.type-mismatch", .error), ("call.argument-type-mismatch", .warning),
    ("call.possible-nil-receiver", .warning), ("call.raise-non-exception", .warning),
    ("call.self-undefined-method", .off), ("call.undefined-method", .error),
    ("call.unresolved-toplevel", .off), ("call.wrong-arity", .error),
    ("def.ivar-write-mismatch", .warning), ("def.method-visibility-mismatch", .warning),
    ("def.override-param-narrowed", .off), ("def.override-return-widened", .off),
    ("def.override-visibility-reduced", .off), ("def.return-type-mismatch", .warning),
    ("dump.type", .info), ("flow.always-raises", .warning), ("flow.always-truthy-condition", .info),
    ("flow.dead-assignment", .info), ("flow.duplicate-hash-key", .info), ("flow.return-in-ensure", .info),
    ("flow.shadowed-rescue-clause", .info), ("flow.unreachable-branch", .info),
    ("flow.unreachable-clause", .info), ("rbs_extended.unsatisfied-conformance", .warning),
    ("static.value-use.void", .off), ("suppression.empty", .warning),
    ("suppression.unknown-marker", .warning), ("suppression.unknown-rule", .warning)]

/-- `BALANCED`. -/
def balancedTable : List (String × ResolvedSeverity) :=
  [("assert.type-mismatch", .error), ("call.argument-type-mismatch", .error),
    ("call.possible-nil-receiver", .error), ("call.raise-non-exception", .error),
    ("call.self-undefined-method", .off), ("call.undefined-method", .error),
    ("call.unresolved-toplevel", .warning), ("call.wrong-arity", .error),
    ("def.ivar-write-mismatch", .warning), ("def.method-visibility-mismatch", .error),
    ("def.override-param-narrowed", .warning), ("def.override-return-widened", .warning),
    ("def.override-visibility-reduced", .warning), ("def.return-type-mismatch", .warning),
    ("dump.type", .info), ("flow.always-raises", .error), ("flow.always-truthy-condition", .warning),
    ("flow.dead-assignment", .warning), ("flow.duplicate-hash-key", .warning),
    ("flow.return-in-ensure", .warning), ("flow.shadowed-rescue-clause", .warning),
    ("flow.unreachable-branch", .warning), ("flow.unreachable-clause", .info),
    ("rbs_extended.unsatisfied-conformance", .warning), ("static.value-use.void", .off),
    ("suppression.empty", .warning), ("suppression.unknown-marker", .warning),
    ("suppression.unknown-rule", .warning)]

/-- `STRICT`. -/
def strictTable : List (String × ResolvedSeverity) :=
  [("assert.type-mismatch", .error), ("call.argument-type-mismatch", .error),
    ("call.possible-nil-receiver", .error), ("call.raise-non-exception", .error),
    ("call.self-undefined-method", .off), ("call.undefined-method", .error),
    ("call.unresolved-toplevel", .error), ("call.wrong-arity", .error),
    ("def.ivar-write-mismatch", .error), ("def.method-visibility-mismatch", .error),
    ("def.override-param-narrowed", .error), ("def.override-return-widened", .error),
    ("def.override-visibility-reduced", .error), ("def.return-type-mismatch", .error),
    ("dump.type", .error), ("flow.always-raises", .error), ("flow.always-truthy-condition", .error),
    ("flow.dead-assignment", .error), ("flow.duplicate-hash-key", .error),
    ("flow.return-in-ensure", .error), ("flow.shadowed-rescue-clause", .error),
    ("flow.unreachable-branch", .error), ("flow.unreachable-clause", .warning),
    ("rbs_extended.unsatisfied-conformance", .error), ("static.value-use.void", .off),
    ("suppression.empty", .warning), ("suppression.unknown-marker", .warning),
    ("suppression.unknown-rule", .warning)]

def Profile.rows : Profile → List (String × ResolvedSeverity)
  | .lenient => lenientTable
  | .balanced => balancedTable
  | .strict => strictTable

def Profile.table (profile : Profile) : List (Text × ResolvedSeverity) :=
  profile.rows.map fun row => (row.1.toList, row.2)

/-- The first segment of a rule id, if it is not empty. -/
def family (rule : Text) : Option Text :=
  let segment := rule.takeWhile (· ≠ '.')
  if segment = [] then none else some segment

/-- The exact id first, then the family. -/
def lookupOverride (rule : Text) (overrides : List (Text × ResolvedSeverity)) : Option ResolvedSeverity :=
  (overrides.lookup rule).or ((family rule).bind fun fam => overrides.lookup fam)

def resolve (rule : Text) (authored : ResolvedSeverity) (profile : Profile)
    (overrides bleedingEdgeOverrides : List (Text × ResolvedSeverity)) : ResolvedSeverity :=
  match lookupOverride rule overrides with
  | some severity => severity
  | none =>
      match bleedingEdgeOverrides.lookup rule with
      | some severity => severity
      | none => (profile.table.lookup rule).getD authored

/-- The severity as the stamp reads it. -/
def ResolvedSeverity.ofSeverity : Severity → ResolvedSeverity
  | .error => .error
  | .warning => .warning
  | .info => .info

/-- The severity that the stamp writes. -/
def ResolvedSeverity.severity? : ResolvedSeverity → Option Severity
  | .error => some .error
  | .warning => some .warning
  | .info => some .info
  | .off => none

/-- `severity_rank`. -/
def severityRank : Severity → Nat
  | .info => 0
  | .warning => 1
  | .error => 2

/-! ## The profiles in order -/

def ResolvedSeverity.rank : ResolvedSeverity → Nat
  | .off => 0
  | .info => 1
  | .warning => 2
  | .error => 3

def Profile.level : Profile → Nat
  | .lenient => 0
  | .balanced => 1
  | .strict => 2

/-- The second row is of the same rule and not below the first. -/
def RowLe (a b : String × ResolvedSeverity) : Prop :=
  a.1 = b.1 ∧ a.2.rank ≤ b.2.rank

instance (a b : String × ResolvedSeverity) : Decidable (RowLe a b) :=
  inferInstanceAs (Decidable (_ ∧ _))

theorem lenient_le_balanced : List.Forall₂ RowLe lenientTable balancedTable := by
  decide

theorem balanced_le_strict : List.Forall₂ RowLe balancedTable strictTable := by
  decide

theorem RowLe.trans {a b c : String × ResolvedSeverity} (first : RowLe a b) (second : RowLe b c) :
    RowLe a c :=
  ⟨first.1.trans second.1, first.2.trans second.2⟩

theorem forall₂_trans {xs ys zs : List (String × ResolvedSeverity)} (first : List.Forall₂ RowLe xs ys)
    (second : List.Forall₂ RowLe ys zs) : List.Forall₂ RowLe xs zs := by
  induction first generalizing zs with
  | nil => exact second
  | cons head tail ih =>
      cases second with
      | cons head' tail' => exact .cons (head.trans head') (ih tail')

theorem rows_mono {p q : Profile} (le : p.level ≤ q.level) : List.Forall₂ RowLe p.rows q.rows := by
  have same (rows : List (String × ResolvedSeverity)) : List.Forall₂ RowLe rows rows :=
    List.forall₂_same.mpr fun _ _ => ⟨rfl, Nat.le_refl _⟩
  cases p with
  | lenient =>
      cases q with
      | lenient => exact same _
      | balanced => exact lenient_le_balanced
      | strict => exact forall₂_trans lenient_le_balanced balanced_le_strict
  | balanced =>
      cases q with
      | lenient => exact absurd le (by simp [Profile.level])
      | balanced => exact same _
      | strict => exact balanced_le_strict
  | strict =>
      cases q with
      | lenient => exact absurd le (by simp [Profile.level])
      | balanced => exact absurd le (by simp [Profile.level])
      | strict => exact same _

theorem rank_lookup_le {xs ys : List (String × ResolvedSeverity)} (rows : List.Forall₂ RowLe xs ys)
    (rule : Text) (authored : ResolvedSeverity) :
    (((xs.map fun row => (row.1.toList, row.2)).lookup rule).getD authored).rank ≤
      (((ys.map fun row => (row.1.toList, row.2)).lookup rule).getD authored).rank := by
  induction rows with
  | nil => exact Nat.le_refl _
  | @cons row row' _ _ head _ ih =>
      rw [List.map_cons, List.map_cons, List.lookup_cons, List.lookup_cons, ← head.1]
      by_cases here : (rule == row.1.toList) = true
      · rw [here]
        exact head.2
      · rw [Bool.not_eq_true] at here
        rw [here]
        exact ih

/-- A stricter profile never resolves a rule lower. -/
theorem rank_resolve_le {p q : Profile} (le : p.level ≤ q.level) (rule : Text)
    (authored : ResolvedSeverity) (overrides bleedingEdgeOverrides : List (Text × ResolvedSeverity)) :
    (resolve rule authored p overrides bleedingEdgeOverrides).rank ≤
      (resolve rule authored q overrides bleedingEdgeOverrides).rank := by
  unfold resolve
  cases lookupOverride rule overrides with
  | some severity => exact Nat.le_refl _
  | none =>
      cases bleedingEdgeOverrides.lookup rule with
      | some severity => exact Nat.le_refl _
      | none => exact rank_lookup_le (rows_mono le) rule authored

/-- A severity that a lower resolution keeps, a higher one keeps at least as high. -/
theorem exists_severity?_of_rank_le {low high : ResolvedSeverity} (le : low.rank ≤ high.rank)
    {severity : Severity} (kept : low.severity? = some severity) :
    ∃ severity', high.severity? = some severity' ∧ severityRank severity ≤ severityRank severity' := by
  cases low <;> cases high <;> simp_all [ResolvedSeverity.severity?, ResolvedSeverity.rank] <;>
    subst kept <;> simp [severityRank]

/-- The rule of the void collector is off in every table, so that its gate is the same for all profiles. -/
theorem lookup_valueUseVoid (profile : Profile) :
    profile.table.lookup "static.value-use.void".toList = some .off := by
  cases profile <;> decide

end Rigor.Cli.Check
