import Rigor.Rust.Colons
import Mathlib.Data.List.Induction

/-!
# The flat signature of a method

The overloads of a method are folded into one arity envelope and one return.  The envelope covers
every overload.  The return is what the overloads with a parameter list agree on, so it covers an
overload without one only if that overload declares the same return.
-/

namespace Rigor.Index

open Rigor.Text

/-- A type name as written. -/
structure TypeName where
  absolute : Bool
  namespacePath : List Text
  name : Text

/-- The types that a flat return tells apart. -/
inductive RbsType where
  | classInstance (name : TypeName)
  | instanceType
  | selfType
  | voidType
  | optional (inner : RbsType)
  | other

structure FunctionType where
  requiredPositionals : List RbsType
  optionalPositionals : List RbsType
  restPositionals : Option RbsType
  trailingPositionals : List RbsType
  requiredKeywords : List (Text × RbsType)
  returnType : RbsType

/-- An overload, with a parameter list or as `(?) -> T`. -/
inductive Overload where
  | typed (function : FunctionType)
  | untyped (returnType : RbsType)

/-- The context of a project file: the magic comment and the `use` clauses. -/
structure FileSigCtx where
  rootOnly : Bool
  useMap : List (Text × Text)

namespace TypeName

/-- The last segment. -/
def typeNameStr (name : TypeName) : Option Text :=
  if name.name.isEmpty then none else some name.name

def writtenRef (name : TypeName) : Option Text :=
  name.typeNameStr.map fun leaf =>
    (if name.absolute then "::".toList else []) ++
      name.namespacePath.flatMap (fun seg => seg ++ "::".toList) ++ leaf

def projectMemberName (ctx : FileSigCtx) (name : TypeName) : Option Text :=
  name.writtenRef.bind fun written =>
    if "::".toList.isPrefixOf written then some written
    else if ctx.rootOnly then some ("::".toList ++ written)
    else
      match splitColons written with
      | [] => some written
      | head :: rest =>
          match ctx.useMap.lookup head with
          | none => some written
          | some target =>
              if rest.isEmpty then some ("::".toList ++ target)
              else some ("::".toList ++ under target (joinColons rest))

/-- The name a member records: of a bundled file the last segment, of a project file the resolved
name. -/
def memberName (ctx : Option FileSigCtx) (name : TypeName) : Option Text :=
  match ctx with
  | none => name.typeNameStr
  | some ctx => name.projectMemberName ctx

end TypeName

/-- A return as the flat slot has it: a class and its nil bit, or one of the flags. -/
structure FlatReturn where
  ret : Option Text
  nilable : Bool
  isInstance : Bool
  isSelf : Bool
  isVoid : Bool
  deriving DecidableEq

namespace FlatReturn

def unknown : FlatReturn :=
  ⟨none, false, false, false, false⟩

/-- What a declared return contributes. -/
def declared (ctx : Option FileSigCtx) : RbsType → FlatReturn
  | .classInstance name => ⟨name.memberName ctx, false, false, false, false⟩
  | .instanceType => ⟨none, false, true, false, false⟩
  | .selfType => ⟨none, false, false, true, false⟩
  | .voidType => ⟨none, false, false, false, true⟩
  | .optional (.classInstance name) => ⟨name.memberName ctx, true, false, false, false⟩
  | .optional .instanceType => ⟨none, true, true, false, false⟩
  | _ => unknown

/-- A class, or one of the flags. -/
def Known (ret : FlatReturn) : Prop :=
  ret.ret.isSome = true ∨ ret.isInstance = true ∨ ret.isSelf = true ∨ ret.isVoid = true

theorem not_known_unknown : ¬ unknown.Known := by
  simp [Known, unknown]

end FlatReturn

/-- The envelope of the positional counts, without one for an ineligible method, and the return. -/
structure MethodSignature where
  arity : Option (Nat × Option Nat)
  returns : FlatReturn

/-- The accumulators of the fold. -/
structure SignatureFold where
  min : Option Nat
  max : Option Nat
  variadic : Bool
  arityIneligible : Bool
  returns : FlatReturn
  retSeen : Bool

namespace SignatureFold

def start : SignatureFold :=
  ⟨none, some 0, false, false, .unknown, false⟩

/-- One overload.  A disagreement drops the return for good. -/
def step (ctx : Option FileSigCtx) (acc : SignatureFold) : Overload → SignatureFold
  | .untyped _ => { acc with arityIneligible := true }
  | .typed function =>
      let required := function.requiredPositionals.length
      let optional := function.optionalPositionals.length
      let hasRest := function.restPositionals.isSome
      let this := FlatReturn.declared ctx function.returnType
      { min := some (acc.min.elim required fun low => Nat.min low required)
        max := if hasRest then acc.max else acc.max.map fun high => Nat.max high (required + optional)
        variadic := acc.variadic || hasRest
        arityIneligible := acc.arityIneligible ||
          (!function.requiredKeywords.isEmpty || !function.trailingPositionals.isEmpty)
        returns :=
          if !acc.retSeen then this else if acc.returns ≠ this then .unknown else acc.returns
        retSeen := true }

end SignatureFold

def methodSignature (ctx : Option FileSigCtx) (overloads : List Overload) : MethodSignature :=
  let acc := overloads.foldl (SignatureFold.step ctx) .start
  { arity :=
      if acc.arityIneligible then none
      else some (acc.min.getD 0, if acc.variadic then none else acc.max)
    returns := acc.returns }

/-! ## What the signature promises -/

namespace Overload

def returnType : Overload → RbsType
  | typed function => function.returnType
  | untyped returnType => returnType

/-- The positional counts the overload takes. -/
def Accepts : Overload → Nat → Prop
  | typed function, count =>
      function.requiredPositionals.length + function.trailingPositionals.length ≤ count ∧
        (function.restPositionals = none →
          count ≤ function.requiredPositionals.length + function.optionalPositionals.length +
            function.trailingPositionals.length)
  | untyped _, _ => True

/-- A parameter list without required keywords and trailing positionals. -/
def Eligible : Overload → Prop
  | typed function => function.requiredKeywords = [] ∧ function.trailingPositionals = []
  | untyped _ => False

end Overload

namespace MethodSignature

def ArityCovers (signature : MethodSignature) (overloads : List Overload) : Prop :=
  ∀ low high, signature.arity = some (low, high) → ∀ overload ∈ overloads, overload.Eligible ∧
    ∀ count, overload.Accepts count → low ≤ count ∧ ∀ top, high = some top → count ≤ top

def ReturnCovers (ctx : Option FileSigCtx) (signature : MethodSignature) (overloads : List Overload) : Prop :=
  signature.returns.Known → ∀ overload ∈ overloads,
    FlatReturn.declared ctx overload.returnType = signature.returns

end MethodSignature

/-- A return that all overloads with a parameter list declare is declared by the others too. -/
def UntypedAgree (ctx : Option FileSigCtx) (overloads : List Overload) : Prop :=
  ∀ ret : FlatReturn, ret.Known → (∃ function, .typed function ∈ overloads) →
    (∀ function, .typed function ∈ overloads → FlatReturn.declared ctx function.returnType = ret) →
    ∀ result, .untyped result ∈ overloads → FlatReturn.declared ctx result = ret

/-! ## The fold -/

/-- The accumulators after some overloads. -/
structure Folded (ctx : Option FileSigCtx) (overloads : List Overload) (acc : SignatureFold) : Prop where
  seen : acc.retSeen = true ↔ ∃ function, .typed function ∈ overloads
  agreed : ∀ ret : FlatReturn, ret.Known → (acc.returns = ret ↔ (∃ function, .typed function ∈ overloads) ∧
    ∀ function, .typed function ∈ overloads → FlatReturn.declared ctx function.returnType = ret)
  eligible : acc.arityIneligible = false → ∀ overload ∈ overloads, overload.Eligible
  low : ∀ function, .typed function ∈ overloads →
    ∃ low, acc.min = some low ∧ low ≤ function.requiredPositionals.length
  high : ∀ function, .typed function ∈ overloads → function.restPositionals = none →
    ∃ high, acc.max = some high ∧
      function.requiredPositionals.length + function.optionalPositionals.length ≤ high
  bounded : acc.max.isSome = true
  variadic : ∀ function, .typed function ∈ overloads → function.restPositionals.isSome = true →
    acc.variadic = true

namespace Folded

variable {ctx : Option FileSigCtx} {overloads : List Overload} {acc : SignatureFold}

theorem start : Folded ctx [] .start where
  seen := iff_of_false Bool.false_ne_true fun ⟨_, mem⟩ => nomatch mem
  agreed ret known := by
    apply iff_of_false
    · rintro rfl
      exact FlatReturn.not_known_unknown known
    · exact fun ⟨⟨_, mem⟩, _⟩ => nomatch mem
  eligible _ _ mem := nomatch mem
  low _ mem := nomatch mem
  high _ mem := nomatch mem
  bounded := rfl
  variadic _ mem := nomatch mem

theorem mem_concat {function : FunctionType} {last : Overload} :
    .typed function ∈ overloads ++ [last] ↔ .typed function ∈ overloads ∨ .typed function = last := by
  rw [List.mem_append, List.mem_singleton]

/-- An overload without a parameter list only ends the envelope. -/
theorem untyped (folded : Folded ctx overloads acc) (result : RbsType) :
    Folded ctx (overloads ++ [.untyped result]) (acc.step ctx (.untyped result)) := by
  have same (function : FunctionType) :
      .typed function ∈ overloads ++ [.untyped result] ↔ .typed function ∈ overloads := by
    rw [mem_concat]
    exact or_iff_left nofun
  constructor
  · simp only [same]
    exact folded.seen
  · simp only [same]
    exact folded.agreed
  · exact nofun
  · simp only [same]
    exact folded.low
  · simp only [same]
    exact folded.high
  · exact folded.bounded
  · simp only [same]
    exact folded.variadic

theorem typed (folded : Folded ctx overloads acc) (function : FunctionType) :
    Folded ctx (overloads ++ [.typed function]) (acc.step ctx (.typed function)) := by
  have mem (other : FunctionType) :
      .typed other ∈ overloads ++ [.typed function] ↔ .typed other ∈ overloads ∨ other = function := by
    rw [mem_concat, Overload.typed.injEq]
  constructor
  · exact iff_of_true rfl ⟨function, (mem function).mpr (.inr rfl)⟩
  · intro ret known
    have whole : ((∃ other, .typed other ∈ overloads ++ [.typed function]) ∧
        ∀ other, .typed other ∈ overloads ++ [.typed function] →
          FlatReturn.declared ctx other.returnType = ret) ↔
        (∀ other, .typed other ∈ overloads → FlatReturn.declared ctx other.returnType = ret) ∧
          FlatReturn.declared ctx function.returnType = ret := by
      simp only [mem, or_imp, forall_and, forall_eq]
      exact and_iff_right ⟨function, .inr rfl⟩
    rw [whole]
    simp only [SignatureFold.step]
    cases seen : acc.retSeen with
    | false =>
        have first (other : FunctionType) : .typed other ∉ overloads := fun old =>
          absurd (seen.symm.trans (folded.seen.mpr ⟨other, old⟩)) Bool.false_ne_true
        simp only [Bool.not_false, if_true]
        exact (and_iff_right fun other old => absurd old (first other)).symm
    | true =>
        have agreed := folded.agreed ret known
        rw [and_iff_right (folded.seen.mp seen)] at agreed
        simp only [Bool.not_true, Bool.false_eq_true, if_false]
        by_cases same : acc.returns = FlatReturn.declared ctx function.returnType
        · rw [if_neg (not_not.mpr same), ← agreed, ← same, and_self]
        · rw [if_pos same, ← agreed]
          apply iff_of_false
          · rintro rfl
            exact FlatReturn.not_known_unknown known
          · exact fun ⟨old, new⟩ => same (old.trans new.symm)
  · intro eligible overload inside
    simp only [SignatureFold.step, Bool.or_eq_false_iff, Bool.not_eq_false', List.isEmpty_iff] at eligible
    rcases List.mem_append.mp inside with old | new
    · exact folded.eligible eligible.1 overload old
    · rw [List.mem_singleton.mp new]
      exact eligible.2
  · intro other inside
    refine ⟨_, rfl, ?_⟩
    rcases (mem other).mp inside with old | rfl
    · rcases folded.low other old with ⟨low, found, bound⟩
      rw [found]
      exact Nat.le_trans (Nat.min_le_left _ _) bound
    · cases acc.min with
      | none => exact Nat.le_refl _
      | some low => exact Nat.min_le_right _ _
  · intro other inside noRest
    rcases Option.isSome_iff_exists.mp folded.bounded with ⟨high, found⟩
    simp only [SignatureFold.step, found, Option.map_some]
    rcases (mem other).mp inside with old | rfl
    · rcases folded.high other old noRest with ⟨high', found', bound⟩
      cases found.symm.trans found'
      cases function.restPositionals.isSome with
      | true => exact ⟨high, rfl, bound⟩
      | false => exact ⟨_, rfl, Nat.le_trans bound (Nat.le_max_left _ _)⟩
    · rw [noRest]
      exact ⟨_, rfl, Nat.le_max_right _ _⟩
  · simp only [SignatureFold.step]
    cases function.restPositionals.isSome with
    | true => exact folded.bounded
    | false =>
        simp only [Bool.false_eq_true, if_false, Option.isSome_map]
        exact folded.bounded
  · intro other inside rest
    simp only [SignatureFold.step, Bool.or_eq_true]
    rcases (mem other).mp inside with old | rfl
    · exact .inl (folded.variadic other old rest)
    · exact .inr rest

theorem of_foldl (ctx : Option FileSigCtx) (overloads : List Overload) :
    Folded ctx overloads (overloads.foldl (SignatureFold.step ctx) .start) := by
  induction overloads using List.reverseRecOn with
  | nil => exact start
  | append_singleton overloads last ih =>
      rw [List.foldl_append]
      cases last with
      | typed function => exact ih.typed function
      | untyped result => exact ih.untyped result

end Folded

variable {ctx : Option FileSigCtx} {overloads : List Overload}

/-- The envelope covers every overload, and ends with the first one that is not eligible. -/
theorem methodSignature_arityCovers (ctx : Option FileSigCtx) (overloads : List Overload) :
    (methodSignature ctx overloads).ArityCovers overloads := by
  have folded := Folded.of_foldl ctx overloads
  intro low high envelope overload mem
  rw [methodSignature] at envelope
  simp only at envelope
  split at envelope
  next => exact nomatch envelope
  next isEligible =>
    rw [Bool.not_eq_true] at isEligible
    cases envelope
    have eligible := folded.eligible isEligible overload mem
    refine ⟨eligible, fun count accepts => ?_⟩
    cases overload with
    | untyped result => exact absurd eligible id
    | typed function =>
        rcases eligible with ⟨-, noTrailing⟩
        rcases accepts with ⟨least, most⟩
        rw [noTrailing, List.length_nil, Nat.add_zero] at least most
        rcases folded.low function mem with ⟨low, found, bound⟩
        constructor
        · rw [found]
          exact Nat.le_trans bound least
        · intro top isTop
          split at isTop
          next => exact nomatch isTop
          next isFixed =>
            have noRest : function.restPositionals = none := by
              cases rest : function.restPositionals with
              | none => rfl
              | some type =>
                  exact absurd (folded.variadic function mem (by rw [rest]; rfl)) isFixed
            rcases folded.high function mem noRest with ⟨high, found', bound'⟩
            cases isTop.symm.trans found'
            exact Nat.le_trans (most noRest) bound'

theorem methodSignature_returnCovers_iff (ctx : Option FileSigCtx) (overloads : List Overload) :
    (methodSignature ctx overloads).ReturnCovers ctx overloads ↔ UntypedAgree ctx overloads := by
  have folded := Folded.of_foldl ctx overloads
  constructor
  · intro covers ret known some all result mem
    have returns : (methodSignature ctx overloads).returns = ret := (folded.agreed ret known).mpr ⟨some, all⟩
    rw [← returns] at known ⊢
    exact covers known (.untyped result) mem
  · intro agree known overload mem
    have typed := (folded.agreed _ known).mp rfl
    cases overload with
    | typed function => exact typed.2 function mem
    | untyped result => exact agree _ known typed.1 typed.2 result mem

/-- The signature covers every overload exactly when the overloads without a parameter list declare
the return that the others agree on. -/
theorem methodSignature_covers_iff (ctx : Option FileSigCtx) (overloads : List Overload) :
    (methodSignature ctx overloads).ArityCovers overloads ∧
        (methodSignature ctx overloads).ReturnCovers ctx overloads ↔
      UntypedAgree ctx overloads :=
  (and_iff_right (methodSignature_arityCovers ctx overloads)).trans
    (methodSignature_returnCovers_iff ctx overloads)

/-- `(Integer) -> String | (?) -> Integer` is flattened to `String`. -/
theorem not_methodSignature_covers : ¬ ∀ ctx overloads,
    (methodSignature ctx overloads).ArityCovers overloads ∧
      (methodSignature ctx overloads).ReturnCovers ctx overloads := by
  intro claimed
  let named (name : String) : RbsType := .classInstance ⟨false, [], name.toList⟩
  have covers := (claimed none [.typed ⟨[named "Integer"], [], none, [], [], named "String"⟩,
    .untyped (named "Integer")]).2
  have different := covers (.inl rfl) (.untyped (named "Integer")) (by simp)
  exact absurd (congrArg FlatReturn.ret different) (by decide)

end Rigor.Index
