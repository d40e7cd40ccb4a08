import Rigor.Index.ClassOrdering

/-!
# Which arguments a parameter type takes

Two walks over a parameter type decide whether it takes `nil`, and whether it takes an instance of
a class.  They unfold unions and, up to a cap, aliases, and they take everything they cannot
decide.
-/

namespace Rigor.Index

open Rigor.Text (stripRoot)
open Relation

universe u

/-- A parameter type as it is retained.  An alias is not unfolded. -/
inductive RetainedParamType where
  | classInstance (name : Text) (args : List RetainedParamType)
  | typeAlias (name : Text) (args : List RetainedParamType)
  | interface (name : Text) (args : List RetainedParamType)
  | var (name : Text)
  | union (members : List RetainedParamType)
  | optional (inner : RetainedParamType)
  | tuple (elements : List RetainedParamType)
  | other (written : Text)

/-- The loaded classes with the aliases and the interfaces, and the classes of the host. -/
structure TypeEnv (Def : Type u) where
  core : CoreData Def
  typeAliasDefs : List (Text × RetainedParamType)
  interfaceMethodNames : List (Text × List Text)
  hostResolvableClasses : List Text

/-- What is asked of the classes and of the interfaces in a type. -/
structure Acceptance where
  class_ : Text → Bool
  interface_ : Text → Bool

namespace Acceptance

mutual

/-- A type, with an answer for the aliases in it. -/
def walk (test : Acceptance) (expand : Text → Bool) : RetainedParamType → Bool
  | .classInstance name _ => test.class_ name
  | .typeAlias name _ => expand name
  | .interface name _ => test.interface_ name
  | .union members => walkAny test expand members
  | .optional _ | .var _ | .tuple _ | .other _ => true

def walkAny (test : Acceptance) (expand : Text → Bool) : List RetainedParamType → Bool
  | [] => false
  | member :: members => walk test expand member || walkAny test expand members

end

end Acceptance

def aliasExpansionCap : Nat :=
  8

def nilCompatibleClassNames : List Text :=
  ["NilClass", "Object", "BasicObject", "Kernel"].map String.toList

namespace TypeEnv

variable {Def : Type u} (env : TypeEnv Def)

def resolveTypeAlias (name : Text) : Option RetainedParamType :=
  env.typeAliasDefs.lookup (stripRoot name)

def interfaceMethods (name : Text) : Option (List Text) :=
  env.interfaceMethodNames.lookup (stripRoot name)

/-- `class_has_method`; the walk behind it always ends. -/
def classHasMethod (className method : Text) : Bool :=
  (env.core.classHasMethod className method).getD true

/-- The walk with some alias expansions left. -/
def acceptsDepth (test : Acceptance) : Nat → RetainedParamType → Bool
  | 0 => test.walk fun _ => true
  | left + 1 => test.walk fun name =>
      match env.resolveTypeAlias name with
      | some rhs => acceptsDepth test left rhs
      | none => true

def interfaceAdmitsNil (name : Text) : Bool :=
  match env.interfaceMethods name with
  | some methods =>
      methods.isEmpty || methods.all fun method => env.classHasMethod "NilClass".toList method
  | none => true

def nilTest : Acceptance where
  class_ name := nilCompatibleClassNames.contains (stripRoot name)
  interface_ := env.interfaceAdmitsNil

def paramAdmitsNil (t : RetainedParamType) : Bool :=
  env.acceptsDepth env.nilTest aliasExpansionCap t

def hostResolvableClass (name : Text) : Bool :=
  env.hostResolvableClasses.contains (stripRoot name)

def interfaceAcceptsArg (argClass name : Text) : Bool :=
  match env.interfaceMethods name with
  | some methods =>
      if methods.isEmpty then true
      else if (env.core.entry? argClass).isNone then true
      else methods.all fun method => env.classHasMethod argClass method
  | none => true

def argTest (argClass : Text) : Acceptance where
  class_ name :=
    match env.core.classOrdering argClass name with
    | some .disjoint | some .superclass => !env.hostResolvableClass argClass
    | _ => true
  interface_ := env.interfaceAcceptsArg argClass

def paramAcceptsArgClass (t : RetainedParamType) (argClass : Text) : Bool :=
  env.acceptsDepth (env.argTest argClass) aliasExpansionCap t

/-! ## The full unfolding -/

/-- A member of a union, or the right-hand side of an alias. -/
inductive Unfolds : RetainedParamType → RetainedParamType → Prop where
  | member {members : List RetainedParamType} {t : RetainedParamType} (mem : t ∈ members) :
      Unfolds (.union members) t
  | rhs {name : Text} {args : List RetainedParamType} {t : RetainedParamType}
      (resolved : env.resolveTypeAlias name = some t) : Unfolds (.typeAlias name args) t

/-- A way through the unfolding, with the number of aliases on it. -/
inductive UnfoldsBy : Nat → RetainedParamType → RetainedParamType → Prop where
  | refl {t : RetainedParamType} : UnfoldsBy 0 t t
  | member {count : Nat} {members : List RetainedParamType} {t last : RetainedParamType}
      (mem : t ∈ members) (rest : UnfoldsBy count t last) : UnfoldsBy count (.union members) last
  | rhs {count : Nat} {name : Text} {args : List RetainedParamType} {t last : RetainedParamType}
      (resolved : env.resolveTypeAlias name = some t) (rest : UnfoldsBy count t last) :
      UnfoldsBy (count + 1) (.typeAlias name args) last

/-- Neither a union nor an alias with a right-hand side. -/
def Leaf : RetainedParamType → Prop
  | .union _ => False
  | .typeAlias name _ => env.resolveTypeAlias name = none
  | _ => True

end TypeEnv

/-- A class or an interface that is not accepted. -/
def Acceptance.Rejects (test : Acceptance) : RetainedParamType → Prop
  | .classInstance name _ => test.class_ name = false
  | .interface name _ => test.interface_ name = false
  | _ => False

namespace TypeEnv

variable {Def : Type u} (env : TypeEnv Def)

def AllLeavesReject (test : Acceptance) (t : RetainedParamType) : Prop :=
  ∀ leaf, ReflTransGen env.Unfolds t leaf → env.Leaf leaf → test.Rejects leaf

/-- Below no alias that is reached the same name is met again. -/
def NoAliasCycle (t : RetainedParamType) : Prop :=
  ∀ name args name' args', ReflTransGen env.Unfolds t (.typeAlias name args) →
    TransGen env.Unfolds (.typeAlias name args) (.typeAlias name' args') →
    stripRoot name ≠ stripRoot name'

/-- Every chain of aliases is within the cap, and has a right-hand side at each alias. -/
def ShortChains (t : RetainedParamType) : Prop :=
  (∀ count last, env.UnfoldsBy count t last → count ≤ aliasExpansionCap) ∧
    ∀ name args, ReflTransGen env.Unfolds t (.typeAlias name args) →
      (env.resolveTypeAlias name).isSome = true

end TypeEnv

/-- Unions with further members, at any place of a type that is unfolded. -/
inductive Widens : RetainedParamType → RetainedParamType → Prop where
  | refl {t : RetainedParamType} : Widens t t
  | union {members wider : List RetainedParamType} (image : RetainedParamType → RetainedParamType)
      (mem : ∀ t ∈ members, image t ∈ wider) (each : ∀ t ∈ members, Widens t (image t)) :
      Widens (.union members) (.union wider)

/-- The same classes and interfaces, and further members in the aliases. -/
structure TypeEnv.WidensTo {Def : Type u} (env wider : TypeEnv Def) : Prop where
  core : wider.core = env.core
  interfaces : wider.interfaceMethodNames = env.interfaceMethodNames
  host : wider.hostResolvableClasses = env.hostResolvableClasses
  unresolved : ∀ name, env.resolveTypeAlias name = none → wider.resolveTypeAlias name = none
  resolved : ∀ name rhs, env.resolveTypeAlias name = some rhs →
    ∃ rhs', wider.resolveTypeAlias name = some rhs' ∧ Widens rhs rhs'

/-! ## Refutations -/

namespace TypeEnv

variable {Def : Type u} {env : TypeEnv Def} {test : Acceptance} {left : Nat} {t : RetainedParamType}

/-- Why a type is not accepted. -/
inductive Refuted (env : TypeEnv Def) (test : Acceptance) : Nat → RetainedParamType → Prop where
  | leaf {left : Nat} {t : RetainedParamType} (rejects : test.Rejects t) : Refuted env test left t
  | union {left : Nat} {members : List RetainedParamType}
      (each : ∀ t ∈ members, Refuted env test left t) : Refuted env test left (.union members)
  | expand {left : Nat} {name : Text} {args : List RetainedParamType} {rhs : RetainedParamType}
      (resolved : env.resolveTypeAlias name = some rhs) (below : Refuted env test left rhs) :
      Refuted env test (left + 1) (.typeAlias name args)

end TypeEnv

namespace Acceptance

theorem walkAny_eq (test : Acceptance) (expand : Text → Bool) (members : List RetainedParamType) :
    test.walkAny expand members = members.any (test.walk expand) := by
  induction members with
  | nil => rfl
  | cons member members ih => rw [walkAny, List.any_cons, ih]

/-- With more aliases accepted no type is lost. -/
theorem walk_mono (test : Acceptance) {expand expand' : Text → Bool}
    (more : ∀ name, expand name = true → expand' name = true) :
    ∀ t, test.walk expand t = true → test.walk expand' t = true
  | .classInstance _ _ | .interface _ _ => id
  | .typeAlias name _ => more name
  | .union members => by
      simp only [walk, walkAny_eq, List.any_eq_true]
      rintro ⟨member, mem, accepted⟩
      exact ⟨member, mem, walk_mono test more member accepted⟩
  | .optional _ | .var _ | .tuple _ | .other _ => fun _ => rfl

end Acceptance

namespace TypeEnv

variable {Def : Type u} {env wider : TypeEnv Def} {test : Acceptance} {left : Nat}
  {t t' : RetainedParamType}

theorem acceptsDepth_union (members : List RetainedParamType) :
    env.acceptsDepth test left (.union members) = members.any (env.acceptsDepth test left) := by
  cases left <;> exact Acceptance.walkAny_eq _ _ _

theorem acceptsDepth_of_rejects (rejects : test.Rejects t) : env.acceptsDepth test left t = false := by
  cases t with
  | classInstance | interface => cases left <;> exact rejects
  | _ => exact rejects.elim

theorem acceptsDepth_of_refuted (refuted : env.Refuted test left t) :
    env.acceptsDepth test left t = false := by
  induction refuted with
  | leaf rejects => exact acceptsDepth_of_rejects rejects
  | union each ih =>
      rw [acceptsDepth_union, List.any_eq_false]
      exact fun member mem accepted => Bool.false_ne_true ((ih member mem).symm.trans accepted)
  | expand resolved below ih =>
      rw [acceptsDepth, Acceptance.walk, resolved]
      exact ih

theorem refuted_of_walk (expand : Text → Bool)
    (rest : ∀ name args, expand name = false → env.Refuted test left (.typeAlias name args)) :
    ∀ t, test.walk expand t = false → env.Refuted test left t
  | .classInstance _ _, rejects | .interface _ _, rejects => .leaf rejects
  | .typeAlias name args, rejects => rest name args rejects
  | .union members, rejects => by
      rw [Acceptance.walk, Acceptance.walkAny_eq, List.any_eq_false] at rejects
      refine .union fun member mem => refuted_of_walk expand rest member ?_
      exact Bool.eq_false_iff.mpr (rejects member mem)
  | .optional _, rejects | .var _, rejects | .tuple _, rejects | .other _, rejects => nomatch rejects

theorem refuted_of_acceptsDepth (rejects : env.acceptsDepth test left t = false) :
    env.Refuted test left t := by
  induction left generalizing t with
  | zero =>
      exact refuted_of_walk (fun _ => true) (fun name args impossible => nomatch impossible) t rejects
  | succ left ih =>
      refine refuted_of_walk _ (fun name args rejected => ?_) t rejects
      cases resolved : env.resolveTypeAlias name with
      | none =>
          rw [resolved] at rejected
          exact nomatch rejected
      | some rhs =>
          rw [resolved] at rejected
          exact .expand resolved (ih rejected)

namespace Refuted

theorem of_unfolds (refuted : env.Refuted test left t) (unfolds : env.Unfolds t t') :
    ∃ left', env.Refuted test left' t' := by
  cases refuted with
  | leaf rejects => cases unfolds <;> exact rejects.elim
  | union each =>
      cases unfolds with
      | member mem => exact ⟨left, each _ mem⟩
  | expand resolved below =>
      cases unfolds with
      | rhs resolved' =>
          cases resolved.symm.trans resolved'
          exact ⟨_, below⟩

theorem of_reaches (refuted : env.Refuted test left t) (reaches : ReflTransGen env.Unfolds t t') :
    ∃ left', env.Refuted test left' t' := by
  induction reaches with
  | refl => exact ⟨left, refuted⟩
  | tail _ unfolds ih =>
      rcases ih with ⟨left', refuted⟩
      exact refuted.of_unfolds unfolds

/-- A refuted leaf is a class or an interface. -/
theorem rejects (refuted : env.Refuted test left t) (leaf : env.Leaf t) : test.Rejects t := by
  cases refuted with
  | leaf rejects => exact rejects
  | union each => exact leaf.elim
  | expand resolved below => exact nomatch resolved.symm.trans leaf

/-- Nothing in the unfolding of a refuted type unfolds to itself. -/
theorem acyclic (refuted : env.Refuted test left t) : ¬ TransGen env.Unfolds t t := by
  induction refuted with
  | leaf rejects =>
      intro cycle
      rcases TransGen.head'_iff.mp cycle with ⟨below, unfolds, -⟩
      cases unfolds <;> exact rejects.elim
  | union each ih =>
      intro cycle
      rcases TransGen.head'_iff.mp cycle with ⟨below, unfolds, back⟩
      cases unfolds with
      | member mem => exact ih _ mem (.tail' back (.member mem))
  | expand resolved below ih =>
      intro cycle
      rcases TransGen.head'_iff.mp cycle with ⟨rhs, unfolds, back⟩
      cases unfolds with
      | rhs resolved' =>
          cases resolved.symm.trans resolved'
          exact ih (.tail' back (.rhs resolved))

theorem noAliasCycle (refuted : env.Refuted test left t) : env.NoAliasCycle t := by
  intro name args name' args' reaches cycle same
  rcases TransGen.head'_iff.mp cycle with ⟨rhs, first, back⟩
  rcases refuted.of_reaches (reaches.tail first) with ⟨left', below⟩
  cases first with
  | rhs resolved =>
      have again : env.Unfolds (.typeAlias name' args') rhs := by
        refine .rhs ?_
        rw [resolveTypeAlias, ← same]
        exact resolved
      exact below.acyclic (.tail' back again)

end Refuted

/-- Within the cap a type whose leaves all reject is refuted. -/
theorem refuted_of_leaves (left : Nat) (t : RetainedParamType)
    (short : ∀ count last, env.UnfoldsBy count t last → count ≤ left)
    (leaves : env.AllLeavesReject test t) : env.Refuted test left t := by
  match t with
  | .classInstance name args => exact .leaf (leaves _ .refl trivial)
  | .interface name args => exact .leaf (leaves _ .refl trivial)
  | .optional inner => exact (leaves _ .refl trivial).elim
  | .var name => exact (leaves _ .refl trivial).elim
  | .tuple elements => exact (leaves _ .refl trivial).elim
  | .other written => exact (leaves _ .refl trivial).elim
  | .union members =>
      refine .union fun member mem => refuted_of_leaves left member ?_ ?_
      · exact fun count last rest => short count last (.member mem rest)
      · exact fun leaf reaches => leaves leaf (.head (.member mem) reaches)
  | .typeAlias name args =>
      cases resolved : env.resolveTypeAlias name with
      | none => exact (leaves _ .refl resolved).elim
      | some rhs =>
          have one := short 1 rhs (.rhs resolved .refl)
          match left with
          | 0 => exact absurd one (Nat.not_succ_le_zero 0)
          | left + 1 =>
              refine .expand resolved (refuted_of_leaves left rhs ?_ ?_)
              · exact fun count last rest => Nat.le_of_succ_le_succ (short _ last (.rhs resolved rest))
              · exact fun leaf reaches => leaves leaf (.head (.rhs resolved) reaches)
termination_by (left, sizeOf t)
decreasing_by
  · have smaller := List.sizeOf_lt_of_mem mem
    apply Prod.Lex.right
    simp only [RetainedParamType.union.sizeOf_spec]
    omega
  · exact Prod.Lex.left _ _ (Nat.lt_succ_self left)

/-! ## Wider types -/

/-- A wider type is accepted where a type is. -/
theorem acceptsDepth_of_widens (widens : Widens t t') (accepted : env.acceptsDepth test left t = true) :
    env.acceptsDepth test left t' = true := by
  induction widens with
  | refl => exact accepted
  | union image mem each ih =>
      rw [acceptsDepth_union, List.any_eq_true] at accepted ⊢
      rcases accepted with ⟨member, inside, accepted⟩
      exact ⟨image member, mem member inside, ih member inside accepted⟩

theorem WidensTo.acceptsDepth (widens : env.WidensTo wider)
    (accepted : env.acceptsDepth test left t = true) : wider.acceptsDepth test left t = true := by
  induction left generalizing t with
  | zero => exact accepted
  | succ left ih =>
      refine test.walk_mono (fun name expanded => ?_) t accepted
      cases resolved : env.resolveTypeAlias name with
      | none => rw [widens.unresolved name resolved]
      | some rhs =>
          rw [resolved] at expanded
          rcases widens.resolved name rhs resolved with ⟨rhs', resolved', wide⟩
          rw [resolved']
          exact acceptsDepth_of_widens wide (ih expanded)

theorem WidensTo.nilTest (widens : env.WidensTo wider) : wider.nilTest = env.nilTest := by
  rcases env with ⟨core, aliases, interfaces, host⟩
  rcases wider with ⟨core', aliases', interfaces', host'⟩
  cases widens.core
  cases widens.interfaces
  rfl

theorem WidensTo.argTest (widens : env.WidensTo wider) (argClass : Text) :
    wider.argTest argClass = env.argTest argClass := by
  rcases env with ⟨core, aliases, interfaces, host⟩
  rcases wider with ⟨core', aliases', interfaces', host'⟩
  cases widens.core
  cases widens.interfaces
  cases widens.host
  rfl

end TypeEnv

/-! ## The laws of acceptance -/

/-- What the full unfolding of a type has to do with the walk. -/
structure AcceptanceLaws {Def : Type u} (env : TypeEnv Def) (test : Acceptance)
    (accepts : TypeEnv Def → RetainedParamType → Bool) : Prop where
  sound : ∀ t, accepts env t = false → env.AllLeavesReject test t ∧ env.NoAliasCycle t
  complete : ∀ t, env.ShortChains t → env.AllLeavesReject test t → accepts env t = false
  monotone : ∀ wider t t', env.WidensTo wider → Widens t t' → accepts env t = true →
    accepts wider t' = true

namespace TypeEnv

variable {Def : Type u} {env : TypeEnv Def}

theorem acceptanceLaws (test : TypeEnv Def → Acceptance)
    (same : ∀ wider, env.WidensTo wider → test wider = test env) :
    AcceptanceLaws env (test env) fun env t => env.acceptsDepth (test env) aliasExpansionCap t where
  sound t rejects := by
    have refuted := refuted_of_acceptsDepth rejects
    refine ⟨fun leaf reaches isLeaf => ?_, refuted.noAliasCycle⟩
    rcases refuted.of_reaches reaches with ⟨left, below⟩
    exact below.rejects isLeaf
  complete t short leaves := acceptsDepth_of_refuted (refuted_of_leaves _ t short.1 leaves)
  monotone wider t t' widens wide accepted := by
    rw [same wider widens]
    exact acceptsDepth_of_widens wide (widens.acceptsDepth accepted)

/-- The two walks reject only what the full unfolding rejects, all of it within the cap, and nothing
that is wider than an accepted type. -/
theorem paramAcceptance_laws (env : TypeEnv Def) :
    AcceptanceLaws env env.nilTest paramAdmitsNil ∧
      ∀ argClass, AcceptanceLaws env (env.argTest argClass) fun env t =>
        env.paramAcceptsArgClass t argClass :=
  ⟨acceptanceLaws nilTest fun _ widens => widens.nilTest,
    fun argClass => acceptanceLaws (fun env => env.argTest argClass) fun _ widens => widens.argTest argClass⟩

end TypeEnv

end Rigor.Index
