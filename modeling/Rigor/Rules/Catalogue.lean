import Rigor.Rules.SuppressSet

/-!
# The rule catalogue

`rule_catalog.rs`: what a rule's rows carry besides their own fields.
-/

namespace Rigor.Rules

open Suppression

structure RuleEntry where
  defaultSeverity : Severity
  evidenceTier : Text
  documentationUrl : Text

/-- An entry, from the anchor of its section in the manual. -/
def ruleEntry (defaultSeverity : Severity) (evidenceTier anchor : String) : RuleEntry where
  defaultSeverity := defaultSeverity
  evidenceTier := evidenceTier.toList
  documentationUrl :=
    "https://rigor.typedduck.fail/manual/04-diagnostics/#rule-".toList ++ anchor.toList

/-- The arms of `catalog`. -/
def ruleCatalogue : List (Text × RuleEntry) :=
  [("call.undefined-method".toList, ruleEntry .error "high" "call-undefined-method"),
    ("call.wrong-arity".toList, ruleEntry .error "high" "call-wrong-arity"),
    ("call.possible-nil-receiver".toList, ruleEntry .error "medium" "call-possible-nil-receiver"),
    ("call.unresolved-toplevel".toList, ruleEntry .warning "low" "call-unresolved-toplevel"),
    ("flow.dead-assignment".toList, ruleEntry .warning "medium" "flow-dead-assignment"),
    ("def.override-visibility-reduced".toList, ruleEntry .warning "high" "def-override-visibility-reduced"),
    ("flow.unreachable-branch".toList, ruleEntry .warning "high" "flow-unreachable-branch"),
    ("flow.always-raises".toList, ruleEntry .error "high" "flow-always-raises"),
    ("flow.always-truthy-condition".toList, ruleEntry .warning "medium" "flow-always-truthy-condition"),
    ("flow.duplicate-hash-key".toList, ruleEntry .warning "high" "flow-duplicate-hash-key"),
    ("flow.return-in-ensure".toList, ruleEntry .warning "high" "flow-return-in-ensure"),
    ("call.argument-type-mismatch".toList, ruleEntry .error "high" "call-argument-type-mismatch"),
    ("call.raise-non-exception".toList, ruleEntry .error "high" "call-raise-non-exception"),
    ("flow.shadowed-rescue-clause".toList, ruleEntry .warning "high" "flow-shadowed-rescue-clause"),
    ("suppression.unknown-rule".toList, ruleEntry .warning "high" "suppression-unknown-rule"),
    ("suppression.empty".toList, ruleEntry .warning "high" "suppression-empty"),
    ("static.value-use.void".toList, ruleEntry .warning "high" "static-value-use-void"),
    ("suppression.unknown-marker".toList, ruleEntry .warning "high" "suppression-unknown-marker"),
    ("def.ivar-write-mismatch".toList, ruleEntry .warning "high" "def-ivar-write-mismatch")]

/-- `catalog`. -/
def catalog (ruleId : Text) : Option RuleEntry :=
  ruleCatalogue.lookup ruleId

/-- The catalogue knows the implemented rules and no others. -/
theorem catalog_isSome_iff (ruleId : Text) : (catalog ruleId).isSome ↔ ruleId ∈ implementedRules := by
  have rows : (ruleCatalogue.map Prod.fst).all (· ∈ implementedRules) = true := by decide +kernel
  have known : implementedRules.all (· ∈ ruleCatalogue.map Prod.fst) = true := by decide +kernel
  have keys : (catalog ruleId).isSome ↔ ruleId ∈ ruleCatalogue.map Prod.fst := by
    simp only [catalog, List.lookup_isSome_iff, List.mem_map, beq_iff_eq]
    exact exists_congr fun row => and_congr_right fun _ => eq_comm
  rw [keys]
  constructor
  · exact fun mem => of_decide_eq_true (List.all_eq_true.mp rows _ mem)
  · exact fun mem => of_decide_eq_true (List.all_eq_true.mp known _ mem)

end Rigor.Rules
