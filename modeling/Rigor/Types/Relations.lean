import Rigor.Types.Algebra

/-!
# Subtyping

`subtype` of `relations.rs` with the certainty algebra that it folds over the
members of unions.
-/

namespace Rigor.Types

/-- Trinary certainty. -/
inductive Certainty where
  | yes
  | no
  | maybe
deriving DecidableEq, Inhabited

namespace Certainty

/-- Conjunction: `no` dominates, `maybe` absorbs `yes`. -/
def and : Certainty → Certainty → Certainty
  | no, _ => no
  | _, no => no
  | maybe, _ => maybe
  | _, maybe => maybe
  | yes, yes => yes

/-- Disjunction: `yes` dominates, `maybe` absorbs `no`. -/
def or : Certainty → Certainty → Certainty
  | yes, _ => yes
  | _, yes => yes
  | maybe, _ => maybe
  | _, maybe => maybe
  | no, no => no

@[simp]
theorem and_eq_yes {a b : Certainty} : a.and b = yes ↔ a = yes ∧ b = yes := by
  cases a <;> cases b <;> decide

@[simp]
theorem or_eq_yes {a b : Certainty} : a.or b = yes ↔ a = yes ∨ b = yes := by
  cases a <;> cases b <;> decide

end Certainty

/-- Why a relation carries the certainty it does. -/
inductive Evidence where
  | subtype
  | consistency
  | budgetCutoff
  | unknown
deriving DecidableEq, Inhabited

/-- The answer of a relational query. -/
structure Relation where
  certainty : Certainty
  evidence : Evidence
deriving DecidableEq, Inhabited

namespace Relation

def yes (evidence : Evidence) : Relation :=
  ⟨.yes, evidence⟩

def maybe (evidence : Evidence) : Relation :=
  ⟨.maybe, evidence⟩

end Relation

namespace Interner

/-- The static facet: unwraps a single `Dynamic[T]`. -/
def facet (i : Interner) (id : TypeId) : TypeId :=
  match i.get id with
  | some (.dynamic facet) => facet
  | _ => id

/-- The end of `subtype`, when neither side is a wrapper: a union on the left is
below iff every member is, else a union on the right is above iff some member is. -/
def unionSubtype (subtype : TypeId → TypeId → Option Relation) (a b : TypeId) :
    Ty → Ty → Option Relation
  | .union members, _ =>
      (members.foldlM (fun acc m =>
        (subtype m b).map fun r => acc.and r.certainty) Certainty.yes).map
          fun acc => ⟨acc, .subtype⟩
  | _, .union members =>
      (members.foldlM (fun acc m =>
        (subtype a m).map fun r => acc.or r.certainty) Certainty.no).map
          fun acc => ⟨acc, .subtype⟩
  | _, _ => some (.maybe .subtype)

/-- `A <: B`, value-set inclusion. -/
def subtype (i : Interner) : Nat → TypeId → TypeId → Option Relation
  | 0, _, _ => none
  | fuel + 1, a, b =>
      if a = b then some (.yes .subtype)
      else if i.isBottom a then some (.yes .subtype)
      else if i.isPlainTop b then some (.yes .subtype)
      else if i.facet a ≠ a ∨ i.facet b ≠ b then i.subtype fuel (i.facet a) (i.facet b)
      else
        (i.get a).bind fun ta =>
          (i.get b).bind fun tb => unionSubtype (i.subtype fuel) a b ta tb

end Interner

end Rigor.Types
