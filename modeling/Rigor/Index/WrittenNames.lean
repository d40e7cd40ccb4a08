import Rigor.Index.InheritedOverloads
import Rigor.Rust.Colons

/-!
# References as written

Two resolvers read a written name against its lexical context.  The one of the finished index
binds the head of the name to the nearest scope and goes on from there, the one of the builder
looks for the whole name in every scope.  They agree except on a name that is partly shadowed.
-/

namespace Rigor.Index

open Rigor.Text

universe u v

/-- The qualified table, and the names of all declared types. -/
structure QualifiedTable (Entry : Type u) where
  qualified : List (Text × Entry)
  typeNames : List Text

namespace QualifiedTable

variable {Entry : Type u} (table : QualifiedTable Entry)

/-- `qualified.get_key_value`, for its key. -/
def key? (name : Text) : Option Text :=
  (table.qualified.lookup name).map fun _ => name

/-- What a name is bound to: a class key, or a declared name that no walk can follow. -/
def bound (cand : Text) : Option (Option Text) :=
  match table.key? cand with
  | some key => some (some key)
  | none => if table.typeNames.contains cand then some none else none

/-- The tail segments under the namespace bound so far. -/
def descend (written : Text) : Text → List Text → Option Text
  | cur, [] => some cur
  | cur, seg :: segs =>
      match table.bound (under cur seg) with
      | some (some key) => descend written key segs
      | some none => none
      | none => table.key? written

/-- A relative name against the scopes, the innermost first. -/
def resolveRelative (written head : Text) (segs scopes : List Text) : Option Text :=
  match (scopes.map (fun scope => under scope head) ++ [head]).findSome? table.bound with
  | some (some key) => table.descend written key segs
  | some none => none
  | none => table.key? written

def resolveWrittenRef (written : Text × List Text) : Option Text :=
  if "::".toList.isPrefixOf written.1 then table.key? (written.1.drop 2)
  else
    match splitColons written.1 with
    | [] => none
    | head :: segs => table.resolveRelative written.1 head segs written.2.reverse

/-! ## Where the resolvers part -/

def IsKey (name : Text) : Prop :=
  (table.qualified.lookup name).isSome = true

/-- Class keys are declared, and so is every namespace of a declared name, as a class. -/
structure Nested : Prop where
  declared : ∀ name, table.IsKey name → name ∈ table.typeNames
  namespaces : ∀ front back, under front back ∈ table.typeNames → table.IsKey front

/-- The namespace has a part of the path, and then lacks a segment. -/
def Lacks (base : Text) (segs : List Text) : Prop :=
  ∃ front seg back, segs = front ++ seg :: back ∧ table.IsKey (front.foldl under base) ∧
    under (front.foldl under base) seg ∉ table.typeNames

/-- The nearest scope that has the head lacks a part of the rest, which a farther one has. -/
def Hides (written head : Text) (segs scopes : List Text) : Prop :=
  ∃ inner scope outer, scopes = inner ++ scope :: outer ∧
    (∀ near ∈ inner, under near head ∉ table.typeNames) ∧ table.Lacks (under scope head) segs ∧
    ∃ far ∈ outer, under far written ∈ table.typeNames

/-- A class key that is hidden by its head in a scope, but not in all scopes around it. -/
def PartlyShadowed (written : Text × List Text) : Prop :=
  "::".toList.isPrefixOf written.1 = false ∧ table.IsKey written.1 ∧
    ∃ head segs, splitColons written.1 = head :: segs ∧
      table.Hides written.1 head segs written.2.reverse

end QualifiedTable

/-- The part of the finished index that references are resolved in. -/
def OverloadBuilder.table {Shapes : Type u} {Sig : Type v} (builder : OverloadBuilder Shapes Sig) :
    QualifiedTable QualifiedEntry :=
  ⟨builder.qualified, builder.knownTypeNames⟩

/-! ## The two resolvers, scope by scope -/

namespace QualifiedTable

variable {Entry : Type u} {table : QualifiedTable Entry} {written head base cand : Text}
  {segs scopes : List Text}

theorem key?_of_isKey (isKey : table.IsKey cand) : table.key? cand = some cand := by
  rcases Option.isSome_iff_exists.mp isKey with ⟨entry, found⟩
  rw [key?, found, Option.map_some]

theorem key?_eq_none (noKey : ¬ table.IsKey cand) : table.key? cand = none := by
  rw [key?, Option.not_isSome_iff_eq_none.mp noKey, Option.map_none]

theorem bound_of_isKey (isKey : table.IsKey cand) : table.bound cand = some (some cand) := by
  rw [bound, key?_of_isKey isKey]

theorem bound_of_noKey (noKey : ¬ table.IsKey cand) (declared : cand ∈ table.typeNames) :
    table.bound cand = some none := by
  simp only [bound, key?_eq_none noKey, List.contains_eq_mem, declared, decide_true, if_true]

theorem isKey_of_key? {key : Text} (found : table.key? cand = some key) : table.IsKey key := by
  rcases Option.map_eq_some_iff.mp found with ⟨entry, present, rfl⟩
  exact Option.isSome_iff_exists.mpr ⟨entry, present⟩

theorem isKey_of_bound {key : Text} (found : table.bound cand = some (some key)) : table.IsKey key := by
  rw [bound] at found
  split at found
  next key' present =>
    cases found
    exact isKey_of_key? present
  next => split at found <;> exact nomatch found

theorem isKey_of_descend {key : Text} (isKey : table.IsKey base)
    (found : table.descend written base segs = some key) : table.IsKey key := by
  induction segs generalizing base with
  | nil =>
      cases found
      exact isKey
  | cons seg segs ih =>
      rw [descend] at found
      split at found
      next key' next => exact ih (isKey_of_bound next) found
      next => exact nomatch found
      next => exact isKey_of_key? found

/-- The finished index answers with class keys only. -/
theorem isKey_of_resolveWrittenRef {ref : Text × List Text} {key : Text}
    (found : table.resolveWrittenRef ref = some key) : table.IsKey key := by
  rw [resolveWrittenRef] at found
  split at found
  · exact isKey_of_key? found
  · split at found
    next => exact nomatch found
    next head segs _ =>
      rw [resolveRelative] at found
      split at found
      next key' first =>
        rcases List.exists_of_findSome?_eq_some first with ⟨cand, -, bound⟩
        exact isKey_of_descend (isKey_of_bound bound) found
      next => exact nomatch found
      next => exact isKey_of_key? found

/-- Without a gap the walk ends at the path, or at a name it cannot follow. -/
theorem descend_of_not_lacks (written : Text) (isKey : table.IsKey base) (full : ¬ table.Lacks base segs) :
    table.descend written base segs = none ∨
      table.descend written base segs = some (segs.foldl under base) ∧
        table.IsKey (segs.foldl under base) := by
  induction segs generalizing base with
  | nil => exact .inr ⟨rfl, isKey⟩
  | cons seg segs ih =>
      rw [descend]
      by_cases next : table.IsKey (under base seg)
      · rw [bound_of_isKey next]
        apply ih next
        rintro ⟨front, missing, back, rfl, reached, undeclared⟩
        exact full ⟨seg :: front, missing, back, rfl, reached, undeclared⟩
      · by_cases declared : under base seg ∈ table.typeNames
        · left
          rw [bound_of_noKey next declared]
        · exact absurd ⟨[], seg, segs, rfl, isKey, declared⟩ full

namespace Nested

variable (nested : table.Nested)

include nested

theorem bound_eq_none (undeclared : cand ∉ table.typeNames) : table.bound cand = none := by
  have noKey : ¬ table.IsKey cand := fun isKey => undeclared (nested.declared cand isKey)
  simp only [bound, key?_eq_none noKey, List.contains_eq_mem, undeclared, decide_false,
    Bool.false_eq_true, if_false]

/-- Every namespace on the way to a declared name is declared. -/
theorem declared_of_foldl (declared : segs.foldl under base ∈ table.typeNames) :
    base ∈ table.typeNames := by
  induction segs generalizing base with
  | nil => exact declared
  | cons seg segs ih => exact nested.declared base (nested.namespaces base seg (ih declared))

theorem isKey_of_foldl (isKey : table.IsKey (segs.foldl under base)) : table.IsKey base := by
  cases segs with
  | nil => exact isKey
  | cons seg segs =>
      exact nested.namespaces base seg (nested.declared_of_foldl (nested.declared _ isKey))

/-- A namespace that lacks a part of the path does not have the path. -/
theorem undeclared_of_lacks (lacks : table.Lacks base segs) : segs.foldl under base ∉ table.typeNames := by
  rcases lacks with ⟨front, seg, back, rfl, -, undeclared⟩
  intro declared
  rw [List.foldl_append, List.foldl_cons] at declared
  exact undeclared (nested.declared_of_foldl declared)

theorem descend_of_lacks (lacks : table.Lacks base segs) :
    table.descend written base segs = table.key? written := by
  rcases lacks with ⟨front, seg, back, rfl, isKey, undeclared⟩
  induction front generalizing base with
  | nil =>
      have unbound : table.bound (under base seg) = none := nested.bound_eq_none undeclared
      rw [List.nil_append, descend, unbound]
  | cons first front ih =>
      have next : table.IsKey (under base first) := nested.isKey_of_foldl isKey
      rw [List.cons_append, descend, bound_of_isKey next]
      exact ih isKey undeclared

end Nested

/-- The whole name, looked for in every scope. -/
def resolveWhole (table : QualifiedTable Entry) (written : Text) (scopes : List Text) : Option Text :=
  let known (name : Text) : Option Text := table.typeNames.find? (· = name)
  (scopes.findSome? fun scope => known (under scope written)).or (known written)

theorem find?_of_mem {names : List Text} (declared : cand ∈ names) :
    names.find? (· = cand) = some cand := by
  cases found : names.find? (· = cand) with
  | none => exact absurd (decide_eq_true rfl) (List.find?_eq_none.mp found cand declared)
  | some name =>
      have same := List.find?_some found
      rw [of_decide_eq_true same]

theorem find?_of_not_mem {names : List Text} (undeclared : cand ∉ names) :
    names.find? (· = cand) = none := by
  rw [List.find?_eq_none]
  rintro name mem same
  exact undeclared (of_decide_eq_true same ▸ mem)

theorem resolveWhole_nil (declared : written ∈ table.typeNames) :
    table.resolveWhole written [] = some written :=
  find?_of_mem declared

theorem resolveWhole_cons_of_mem {scope : Text} (declared : under scope written ∈ table.typeNames) :
    table.resolveWhole written (scope :: scopes) = some (under scope written) := by
  simp only [resolveWhole, List.findSome?_cons, find?_of_mem declared, Option.some_or]

theorem resolveWhole_cons_of_not_mem {scope : Text}
    (undeclared : under scope written ∉ table.typeNames) :
    table.resolveWhole written (scope :: scopes) = table.resolveWhole written scopes := by
  simp only [resolveWhole, List.findSome?_cons, find?_of_not_mem undeclared]

/-- The whole name is found at the root where no scope has it. -/
theorem resolveWhole_eq_iff (declared : written ∈ table.typeNames) :
    table.resolveWhole written scopes = some written ↔
      ∀ far ∈ scopes, under far written ∉ table.typeNames := by
  induction scopes with
  | nil => simp only [resolveWhole_nil declared, List.not_mem_nil, false_imp_iff, implies_true]
  | cons scope scopes ih =>
      rw [List.forall_mem_cons]
      by_cases here : under scope written ∈ table.typeNames
      · have longer : under scope written ≠ written := fun same =>
          absurd (congrArg List.length same) (length_lt_under scope written).ne'
        simp only [resolveWhole_cons_of_mem here, Option.some.injEq, longer, here, not_true_eq_false,
          false_and]
      · rw [resolveWhole_cons_of_not_mem here, ih, and_iff_right here]

theorem resolveRelative_nil : table.resolveRelative written head segs [] =
    match table.bound head with
    | some (some key) => table.descend written key segs
    | some none => none
    | none => table.key? written := by
  rw [resolveRelative, List.map_nil, List.nil_append, List.findSome?_singleton]

theorem resolveRelative_cons (scope : Text) :
    table.resolveRelative written head segs (scope :: scopes) =
      match table.bound (under scope head) with
      | some (some key) => table.descend written key segs
      | some none => none
      | none => table.resolveRelative written head segs scopes := by
  rw [resolveRelative, List.map_cons, List.cons_append, List.findSome?_cons]
  cases table.bound (under scope head) with
  | none => rfl
  | some binding => cases binding <;> rfl

theorem resolveRelative_cons_of_isKey {scope : Text} (isKey : table.IsKey (under scope head)) :
    table.resolveRelative written head segs (scope :: scopes) =
      table.descend written (under scope head) segs := by
  rw [resolveRelative_cons, bound_of_isKey isKey]

theorem resolveRelative_cons_of_noKey {scope : Text} (noKey : ¬ table.IsKey (under scope head))
    (declared : under scope head ∈ table.typeNames) :
    table.resolveRelative written head segs (scope :: scopes) = none := by
  rw [resolveRelative_cons, bound_of_noKey noKey declared]

theorem Nested.resolveRelative_cons_of_not_mem (nested : table.Nested) {scope : Text}
    (free : under scope head ∉ table.typeNames) :
    table.resolveRelative written head segs (scope :: scopes) =
      table.resolveRelative written head segs scopes := by
  rw [resolveRelative_cons, nested.bound_eq_none free]

/-! ### Where the head is bound -/

theorem not_hides_nil : ¬ table.Hides written head segs [] := by
  rintro ⟨inner, scope, outer, parts, -⟩
  exact List.append_ne_nil_of_right_ne_nil inner (List.cons_ne_nil scope outer) parts.symm

/-- Only the nearest scope that has the head can hide the name. -/
theorem hides_cons_of_mem {scope : Text} (bound : under scope head ∈ table.typeNames) :
    table.Hides written head segs (scope :: scopes) ↔
      table.Lacks (under scope head) segs ∧ ∃ far ∈ scopes, under far written ∈ table.typeNames := by
  constructor
  · rintro ⟨inner, binder, outer, parts, free, lacks, far⟩
    cases inner with
    | nil =>
        cases parts
        exact ⟨lacks, far⟩
    | cons near inner =>
        cases parts
        exact absurd bound (free scope List.mem_cons_self)
  · rintro ⟨lacks, far⟩
    exact ⟨[], scope, scopes, rfl, nofun, lacks, far⟩

theorem hides_cons_of_not_mem (nested : table.Nested) {scope : Text} (free : under scope head ∉ table.typeNames) :
    table.Hides written head segs (scope :: scopes) ↔ table.Hides written head segs scopes := by
  constructor
  · rintro ⟨inner, binder, outer, parts, near, lacks, far⟩
    cases inner with
    | nil =>
        cases parts
        rcases lacks with ⟨front, seg, back, -, isKey, -⟩
        exact absurd (nested.declared_of_foldl (nested.declared _ isKey)) free
    | cons first inner =>
        cases parts
        exact ⟨inner, binder, outer, rfl, fun t mem => near t (List.mem_cons_of_mem _ mem), lacks, far⟩
  · rintro ⟨inner, binder, outer, rfl, near, lacks, far⟩
    exact ⟨scope :: inner, binder, outer, rfl, List.forall_mem_cons.mpr ⟨free, near⟩, lacks, far⟩

section Scopes

variable (nested : table.Nested) (whole : segs.foldl under head = written)

include nested whole

/-- At the root nothing but the name itself can answer. -/
theorem eq_of_resolveRelative_nil {key : Text}
    (answer : table.resolveRelative written head segs [] = some key) :
    key = written ∧ written ∈ table.typeNames := by
  rw [resolveRelative_nil] at answer
  by_cases isKey : table.IsKey head
  · by_cases lacks : table.Lacks head segs
    · have noKey : ¬ table.IsKey written := by
        rw [← whole]
        exact fun found => nested.undeclared_of_lacks lacks (nested.declared _ found)
      simp only [bound_of_isKey isKey, nested.descend_of_lacks lacks, key?_eq_none noKey,
        reduceCtorEq] at answer
    · rcases descend_of_not_lacks written isKey lacks with dead | ⟨reached, found⟩
      · simp only [bound_of_isKey isKey, dead, reduceCtorEq] at answer
      · simp only [bound_of_isKey isKey, reached, whole, Option.some.injEq] at answer
        rw [whole] at found
        exact ⟨answer.symm, nested.declared _ found⟩
  · by_cases declared : head ∈ table.typeNames
    · simp only [bound_of_noKey isKey declared, reduceCtorEq] at answer
    · have noKey : ¬ table.IsKey written := by
        rw [← whole]
        exact fun found => declared (nested.declared_of_foldl (nested.declared _ found))
      simp only [nested.bound_eq_none declared, key?_eq_none noKey, reduceCtorEq] at answer

theorem head_declared {scope : Text} (declared : under scope written ∈ table.typeNames) :
    under scope head ∈ table.typeNames := by
  rw [← whole, ← foldl_under_under] at declared
  exact nested.declared_of_foldl declared

/-- The whole name answers as its head does unless a scope hides it. -/
theorem resolveWhole_agrees_iff (scopes : List Text) :
    (∀ key, table.resolveRelative written head segs scopes = some key →
      table.resolveWhole written scopes = some key) ↔
    ¬ (table.IsKey written ∧ table.Hides written head segs scopes) := by
  induction scopes with
  | nil =>
      apply iff_of_true
      · intro key answer
        rcases eq_of_resolveRelative_nil nested whole answer with ⟨rfl, declared⟩
        exact resolveWhole_nil declared
      · exact fun hidden => not_hides_nil hidden.2
  | cons scope scopes ih =>
      by_cases declared : under scope head ∈ table.typeNames
      · rw [hides_cons_of_mem declared]
        by_cases isKey : table.IsKey (under scope head)
        · rw [resolveRelative_cons_of_isKey isKey]
          by_cases lacks : table.Lacks (under scope head) segs
          · -- The walk starts anew at the root, the search in the scopes outside.
            have absent : under scope written ∉ table.typeNames := by
              rw [← whole, ← foldl_under_under]
              exact nested.undeclared_of_lacks lacks
            rw [resolveWhole_cons_of_not_mem absent, nested.descend_of_lacks lacks]
            by_cases root : table.IsKey written
            · have known := nested.declared _ root
              rw [key?_of_isKey root]
              simp only [Option.some.injEq, forall_eq', resolveWhole_eq_iff known, root, lacks,
                true_and, not_exists, not_and]
            · simp only [key?_eq_none root, root, reduceCtorEq, false_imp_iff, implies_true,
                false_and, not_false_eq_true]
          · have unhidden : ¬ (table.IsKey written ∧ table.Lacks (under scope head) segs ∧
                ∃ far ∈ scopes, under far written ∈ table.typeNames) :=
              fun hidden => lacks hidden.2.1
            refine iff_of_true ?_ unhidden
            intro key answer
            rcases descend_of_not_lacks written isKey lacks with dead | ⟨reached, found⟩
            · exact nomatch dead.symm.trans answer
            · rw [foldl_under_under, whole] at reached found
              rw [← reached.symm.trans answer]
              exact resolveWhole_cons_of_mem (nested.declared _ found)
        · rw [resolveRelative_cons_of_noKey isKey declared]
          apply iff_of_true nofun
          rintro ⟨-, ⟨front, seg, back, -, reached, -⟩, -⟩
          exact isKey (nested.isKey_of_foldl reached)
      · have absent : under scope written ∉ table.typeNames :=
          fun found => declared (head_declared nested whole found)
        rw [hides_cons_of_not_mem nested declared, nested.resolveRelative_cons_of_not_mem declared,
          resolveWhole_cons_of_not_mem absent]
        exact ih

end Scopes

end QualifiedTable

namespace OverloadBuilder

open QualifiedTable

variable {Shapes : Type u} {Sig : Type v}

theorem resolveTypeNameRbs_relative (builder : OverloadBuilder Shapes Sig) {written : Text × List Text}
    (relative : "::".toList.isPrefixOf written.1 = false) :
    builder.resolveTypeNameRbs written = builder.table.resolveWhole written.1 written.2.reverse := by
  rw [resolveTypeNameRbs]
  simp only [relative, Bool.false_eq_true, if_false]
  rfl

theorem resolveTypeNameRbs_absolute (builder : OverloadBuilder Shapes Sig) {written : Text × List Text}
    {key : Text} (nested : builder.table.Nested) (absolute : "::".toList.isPrefixOf written.1 = true)
    (answer : builder.table.resolveWrittenRef written = some key) :
    builder.resolveTypeNameRbs written = some key := by
  rw [resolveWrittenRef, if_pos absolute, key?] at answer
  rcases Option.map_eq_some_iff.mp answer with ⟨entry, found, rfl⟩
  have declared : written.1.drop 2 ∈ builder.knownTypeNames :=
    nested.declared _ (Option.isSome_iff_exists.mpr ⟨entry, found⟩)
  rw [resolveTypeNameRbs]
  simp only [absolute, if_true]
  exact find?_of_mem declared

/-- The builder reads a reference as the finished index does exactly when no scope of the context
hides it in part. -/
theorem resolveTypeNameRbs_agrees_iff (builder : OverloadBuilder Shapes Sig)
    (nested : builder.table.Nested) (written : Text × List Text) :
    (∀ key, builder.table.resolveWrittenRef written = some key →
      builder.resolveTypeNameRbs written = some key) ↔ ¬ builder.table.PartlyShadowed written := by
  cases absolute : "::".toList.isPrefixOf written.1 with
  | true =>
      apply iff_of_true
      · exact fun key answer => builder.resolveTypeNameRbs_absolute nested absolute answer
      · exact fun shadowed => absurd (absolute.symm.trans shadowed.1) (by decide)
  | false =>
      cases parts : splitColons written.1 with
      | nil => exact absurd parts (splitColons_ne_nil _)
      | cons head segs =>
          have agrees := resolveWhole_agrees_iff nested (foldl_under_of_split written.1 parts)
            written.2.reverse
          have shadowed : builder.table.PartlyShadowed written ↔
              builder.table.IsKey written.1 ∧
                builder.table.Hides written.1 head segs written.2.reverse := by
            simp only [PartlyShadowed, absolute, parts, true_and, List.cons.injEq]
            constructor
            · rintro ⟨root, _, _, ⟨rfl, rfl⟩, hides⟩
              exact ⟨root, hides⟩
            · rintro ⟨root, hides⟩
              exact ⟨root, head, segs, ⟨rfl, rfl⟩, hides⟩
          have relative : builder.table.resolveWrittenRef written =
              builder.table.resolveRelative written.1 head segs written.2.reverse := by
            rw [resolveWrittenRef, absolute, parts]
            rfl
          rw [shadowed, ← agrees, relative, builder.resolveTypeNameRbs_relative absolute]

/-! ## A name shadowed in part -/

theorem nested_of_inits {builder : OverloadBuilder Shapes Sig}
    (declared : ∀ pair ∈ builder.qualified, pair.1 ∈ builder.knownTypeNames)
    (namespaces : ∀ name ∈ builder.knownTypeNames, ∀ front ∈ name.inits,
      front ++ "::".toList ∈ name.inits → (builder.qualified.lookup front).isSome = true) :
    builder.table.Nested where
  declared name isKey := by
    rcases Option.isSome_iff_exists.mp isKey with ⟨entry, found⟩
    exact declared (name, entry) (Library.Grouping.mem_of_lookup found)
  namespaces front back mem := by
    refine namespaces (under front back) mem front ?_ ?_
    · exact (List.mem_inits _ _).mpr ⟨"::".toList ++ back, (List.append_assoc _ _ _).symm⟩
    · exact (List.mem_inits _ _).mpr ⟨back, rfl⟩

/-- `A::B` has an `X` without a `Y`, around it `A` has an `X::Y`, and so has the root. -/
def innerShadow : OverloadBuilder Unit Text where
  qualified := ["A", "A::B", "A::B::X", "A::X", "A::X::Y", "X", "X::Y"].map fun name =>
    (name.toList, ⟨false, [], [], none⟩)
  knownTypeNames := ["A", "A::B", "A::B::X", "A::X", "A::X::Y", "X", "X::Y"].map String.toList
  members := fun _ => .empty
  classes := []
  shortMembers := fun _ => .empty

theorem nested_innerShadow : innerShadow.table.Nested :=
  nested_of_inits (by decide) (by decide)

/-- One scope further out the two resolvers agree again. -/
theorem resolveTypeNameRbs_agrees_iff_innerShadow :
    (∀ key, innerShadow.table.resolveWrittenRef ("X::Y".toList, ["A".toList]) = some key →
      innerShadow.resolveTypeNameRbs ("X::Y".toList, ["A".toList]) = some key) ↔
    ¬ innerShadow.table.PartlyShadowed ("X::Y".toList, ["A".toList]) :=
  innerShadow.resolveTypeNameRbs_agrees_iff nested_innerShadow _

/-- From `A::B`, `X::Y` is the one at the root, and for the builder the one in `A`. -/
theorem not_resolveTypeNameRbs_agrees : ¬ ∀ builder : OverloadBuilder Unit Text,
    builder.table.Nested → ∀ written key, builder.table.resolveWrittenRef written = some key →
      builder.resolveTypeNameRbs written = some key := by
  intro claimed
  have answer := claimed innerShadow nested_innerShadow
    ("X::Y".toList, ["A".toList, "A::B".toList]) "X::Y".toList (by decide)
  exact absurd answer (by decide)

end OverloadBuilder

end Rigor.Index
