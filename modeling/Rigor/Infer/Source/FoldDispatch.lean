import Rigor.Infer.Source.ResolutionChain

/-!
# The literal fold under dynamic dispatch

The fold resolves each call from the class whose method it reads.  A run resolves it from the
class of the receiver, which may be below that class.  The two agree where the gate on
overriding definers fires, and where no class below puts another definer ahead of the owner
that the fold found.
-/

namespace Rigor.Infer.Source

open Rigor.Types (Scalar)
open Rigor.Library

universe v

variable {Refinement : Type v}

/-- Classes and modules with superclass and include edges, and who defines which method. -/
structure FoldHierarchy (Refinement : Type v) extends DefinerTables Refinement where
  unextended : ∀ row ∈ overrideClasses, row.2.extends_ = []

/-- An ancestor order of every instance and every class object.  The members are the project
ancestors. -/
structure Linearisation (tables : AncestorTables Refinement) where
  order : Text → DefKind → List Text
  mem_order : ∀ className kind ancestor,
    ancestor ∈ order className kind ↔ tables.Ancestry kind className ancestor

/-- The bodies of the methods that the tables list. -/
structure Bodies (tables : AncestorTables Refinement) where
  sites : FoldDefs
  defined : ∀ owner method kind,
    (sites (owner, method, kind)).isSome = tables.ownerDefines owner method kind

/-- An instance of a class, or the class object. -/
abbrev Receiver :=
  Text × DefKind

namespace FoldHierarchy

variable (hierarchy : FoldHierarchy Refinement) (core : CoreSurface)
  (fold : Scalar → Text → List Scalar → Option Scalar)

/-- What the fold reads of a project without `pre_eval` patches. -/
def foldIndex : FoldIndex where
  preEvalDefinesName _ := false
  resolveSingletonSlot := hierarchy.resolveSingletonSlot
  resolveInstanceOwner := hierarchy.resolveInstanceOwner core
  overriddenInProject := hierarchy.overriddenInProject
  fold := fold

/-- `implicit_self_literal`. -/
def implicitSelfLiteral (table : MethodKey → Option Scalar) (selfQual : Text) (selfKind : DefKind)
    (method : Text) : Option Scalar :=
  ((hierarchy.foldIndex core fold).resolveSelf selfQual selfKind method).bind table

/-! ## Runs -/

variable (linearisation : Linearisation hierarchy.toAncestorTables)

/-- The definition that answers a call: the first definer in the receiver's order. -/
def dispatch (receiver : Receiver) (method : Text) : Option MethodKey :=
  ((linearisation.order receiver.1 receiver.2).find? (hierarchy.ownerDefines · method receiver.2)).map
    fun owner => (owner, method, receiver.2)

mutual

/-- A captured tail that runs with a receiver gives a literal.  Calls are dispatched on the
receiver, and a core call means what the core folds compute. -/
inductive TailEvaluates (sites : FoldDefs) : Receiver → FoldTail → Scalar → Prop where
  | scalar (receiver : Receiver) (value : Scalar) :
      TailEvaluates sites receiver (.scalar value) value
  | selfCall {receiver : Receiver} {method : Text} {key : MethodKey} {value : Scalar}
      (answers : hierarchy.dispatch linearisation receiver method = some key)
      (runs : MethodEvaluates sites receiver key value) :
      TailEvaluates sites receiver (.selfCall method) value
  | constCall {receiver : Receiver} {owner method : Text} {key : MethodKey} {value : Scalar}
      (answers : hierarchy.dispatch linearisation (owner, .singleton) method = some key)
      (runs : MethodEvaluates sites (owner, .singleton) key value) :
      TailEvaluates sites receiver (.constCall owner method) value
  | not {receiver : Receiver} {operand : FoldTail} {inner value : Scalar}
      (runs : TailEvaluates sites receiver operand inner)
      (computes : fold inner "!".toList [] = some value) :
      TailEvaluates sites receiver (.not operand) value
  | coreCall {receiver : Receiver} {recv : FoldTail} {method : Text} {args : List FoldTail}
      {recvValue value : Scalar} {argValues : List Scalar}
      (runs : TailEvaluates sites receiver recv recvValue)
      (runArgs : ArgsEvaluate sites receiver args argValues)
      (computes : fold recvValue method argValues = some value) :
      TailEvaluates sites receiver (.coreCall recv method args) value

inductive ArgsEvaluate (sites : FoldDefs) : Receiver → List FoldTail → List Scalar → Prop where
  | nil (receiver : Receiver) : ArgsEvaluate sites receiver [] []
  | cons {receiver : Receiver} {arg : FoldTail} {args : List FoldTail} {value : Scalar}
      {values : List Scalar} (runs : TailEvaluates sites receiver arg value)
      (rest : ArgsEvaluate sites receiver args values) :
      ArgsEvaluate sites receiver (arg :: args) (value :: values)

/-- Whichever site of the method was loaded last, its body runs to its tail and gives the
literal. -/
inductive MethodEvaluates (sites : FoldDefs) : Receiver → MethodKey → Scalar → Prop where
  | sites {receiver : Receiver} {key : MethodKey} {value : Scalar} {bodies : List FoldSite}
      (defined : sites key = some bodies) (nonempty : bodies ≠ [])
      (plain : ∀ site ∈ bodies, site.hasExplicitReturn = false)
      (runs : ∀ site ∈ bodies, TailEvaluates sites receiver site.tail value) :
      MethodEvaluates sites receiver key value

end

/-- A literal that the fold gives for a call on `self` in a class is what the call gives on every
receiver that has the class among its ancestors. -/
def FoldSound (bodies : Bodies hierarchy.toAncestorTables) (kind : DefKind) : Prop :=
  ∀ keys table, (∀ key, key ∈ keys ↔ (bodies.sites key).isSome = true) →
    Fuel.Returns (fun fuel =>
      computeLiteralReturns (hierarchy.foldIndex core fold) bodies.sites fuel keys) table →
    ∀ className method value,
      hierarchy.implicitSelfLiteral core fold table className kind method = some value →
        ∀ sub, className ∈ linearisation.order sub kind →
          ∃ selected, hierarchy.dispatch linearisation (sub, kind) method = some selected ∧
            hierarchy.MethodEvaluates fold linearisation bodies.sites (sub, kind) selected value

/-- A class has a definer of the method ahead of the owner, and no definer of the method has
the owner in its ancestor closure. -/
def Joins (sub : Text) (kind : DefKind) (owner method : Text) : Prop :=
  hierarchy.overriddenInProject owner method kind = false ∧
    ∃ ahead behind, linearisation.order sub kind = ahead ++ owner :: behind ∧ owner ∉ ahead ∧
      ∃ definer ∈ ahead, hierarchy.ownerDefines definer method kind = true

/-- No class below another joins an owner that is resolved from there with such a definer. -/
def Unjoined (kind : DefKind) : Prop :=
  ∀ className method key,
    (hierarchy.foldIndex core fold).resolveSelf className kind method = some key →
      ∀ sub, className ∈ linearisation.order sub kind →
        ¬ hierarchy.Joins linearisation sub kind key.1 method

end FoldHierarchy

/-! ## Dispatch without a joined definer -/

namespace FoldHierarchy

variable {hierarchy : FoldHierarchy Refinement} {core : CoreSurface}
  {fold : Scalar → Text → List Scalar → Option Scalar}
  {linearisation : Linearisation hierarchy.toAncestorTables}

theorem extendedNames_eq_nil (className : Text) : hierarchy.extendedNames className = [] := by
  rw [AncestorTables.extendedNames]
  rcases found : hierarchy.overrideClasses.lookup className with _ | entry
  · rfl
  · have plain := hierarchy.unextended (className, entry) (Library.Grouping.mem_of_lookup found)
    simp only at plain ⊢
    rw [plain, List.filterMap_nil]

/-- A resolved method is defined by an ancestor, with the kind of the receiver. -/
theorem resolveSelf_spec {className method : Text} {kind : DefKind} {key : MethodKey}
    (resolved : (hierarchy.foldIndex core fold).resolveSelf className kind method = some key) :
    key = (key.1, method, kind) ∧ hierarchy.ownerDefines key.1 method kind = true ∧
      hierarchy.Ancestry kind className key.1 := by
  cases kind with
  | inst =>
      obtain ⟨owner, found, rfl⟩ := Option.map_eq_some_iff.mp resolved
      obtain ⟨nearest, walked, agrees⟩ := Option.bind_eq_some_iff.mp found
      split at agrees
      · obtain rfl := Option.some.inj agrees
        exact ⟨rfl, AncestorTables.resolveInstanceOwnerBfs_spec walked⟩
      · simp at agrees
  | singleton =>
      obtain ⟨slot, found, rfl⟩ := Option.map_eq_some_iff.mp resolved
      obtain ⟨kind, defines, path⟩ := AncestorTables.singletonSlot_spec extendedNames_eq_nil found
      exact ⟨by simp [kind], defines, path⟩

theorem ancestry_trans {kind : DefKind} {first second third : Text}
    (lower : hierarchy.Ancestry kind first second) (upper : hierarchy.Ancestry kind second third) :
    hierarchy.Ancestry kind first third := by
  cases kind with
  | inst => exact Relation.ReflTransGen.trans lower upper
  | singleton => exact Relation.ReflTransGen.trans lower upper

theorem ancestry_refl (kind : DefKind) (className : Text) :
    hierarchy.Ancestry kind className className := by
  cases kind with
  | inst => exact Relation.ReflTransGen.refl
  | singleton => exact Relation.ReflTransGen.refl

/-- The owners that are resolved from an ancestor are ancestors. -/
theorem mem_order_of_resolveSelf {className method sub : Text} {kind : DefKind} {key : MethodKey}
    (resolved : (hierarchy.foldIndex core fold).resolveSelf className kind method = some key)
    (below : className ∈ linearisation.order sub kind) :
    key.1 ∈ linearisation.order sub kind := by
  rw [linearisation.mem_order] at below ⊢
  exact ancestry_trans below (resolveSelf_spec resolved).2.2

/-- The call is answered by the method that the fold resolved. -/
theorem dispatch_eq {className method sub : Text} {kind : DefKind} {key : MethodKey}
    (unjoined : hierarchy.Unjoined core fold linearisation kind)
    (resolved : (hierarchy.foldIndex core fold).resolveSelf className kind method = some key)
    (final : hierarchy.overriddenInProject key.1 method kind = false)
    (below : className ∈ linearisation.order sub kind) :
    hierarchy.dispatch linearisation (sub, kind) method = some key := by
  obtain ⟨sameKey, defines, -⟩ := resolveSelf_spec resolved
  have inOrder := mem_order_of_resolveSelf resolved below
  obtain ⟨ahead, behind, split, fresh⟩ := List.eq_append_cons_of_mem inOrder
  have noneAhead : ahead.find? (hierarchy.ownerDefines · method kind) = none := by
    rw [List.find?_eq_none]
    intro definer mem definerDefines
    exact unjoined className method key resolved sub below
      ⟨final, ahead, behind, split, fresh, definer, mem, definerDefines⟩
  rw [dispatch, split, List.find?_append, noneAhead, Option.none_or, List.find?_cons]
  simp only [defines, Option.map_some, ← sameKey]

section Evaluation

variable {sites : FoldDefs} {values : MethodKey → Option Scalar} {className : Text}
  {receiver : Receiver}

mutual

/-- A tail evaluates to its literal if the methods that it calls do. -/
theorem tailEvaluates_of_tailValue
    (selfCalls : ∀ method key value,
      (hierarchy.foldIndex core fold).resolveSelf className receiver.2 method = some key →
        values key = some value → hierarchy.dispatch linearisation receiver method = some key ∧
          hierarchy.MethodEvaluates fold linearisation sites receiver key value)
    (constCalls : ∀ owner method value, values (owner, method, .singleton) = some value →
      hierarchy.dispatch linearisation (owner, .singleton) method = some (owner, method, .singleton) ∧
        hierarchy.MethodEvaluates fold linearisation sites (owner, .singleton)
          (owner, method, .singleton) value)
    (tail : FoldTail) (value : Scalar)
    (folded : tailValue (hierarchy.foldIndex core fold) values className receiver.2 tail = some value) :
    hierarchy.TailEvaluates fold linearisation sites receiver tail value := by
  match tail with
  | .decline => simp [tailValue] at folded
  | .scalar literal =>
      obtain rfl := Option.some.inj folded
      exact .scalar receiver _
  | .selfCall method =>
      obtain ⟨key, resolved, found⟩ := Option.bind_eq_some_iff.mp folded
      obtain ⟨answers, runs⟩ := selfCalls method key value resolved found
      exact .selfCall answers runs
  | .constCall owner method =>
      obtain ⟨answers, runs⟩ := constCalls owner method value folded
      exact .constCall answers runs
  | .not operand =>
      obtain ⟨inner, foldedInner, computes⟩ := Option.bind_eq_some_iff.mp folded
      exact .not (tailEvaluates_of_tailValue selfCalls constCalls operand inner foldedInner) computes
  | .coreCall recv method args =>
      obtain ⟨recvValue, foldedRecv, rest⟩ := Option.bind_eq_some_iff.mp folded
      obtain ⟨argValues, foldedArgs, computes⟩ := Option.bind_eq_some_iff.mp rest
      exact .coreCall (tailEvaluates_of_tailValue selfCalls constCalls recv recvValue foldedRecv)
        (argsEvaluate_of_argValues selfCalls constCalls args argValues foldedArgs) computes

theorem argsEvaluate_of_argValues
    (selfCalls : ∀ method key value,
      (hierarchy.foldIndex core fold).resolveSelf className receiver.2 method = some key →
        values key = some value → hierarchy.dispatch linearisation receiver method = some key ∧
          hierarchy.MethodEvaluates fold linearisation sites receiver key value)
    (constCalls : ∀ owner method value, values (owner, method, .singleton) = some value →
      hierarchy.dispatch linearisation (owner, .singleton) method = some (owner, method, .singleton) ∧
        hierarchy.MethodEvaluates fold linearisation sites (owner, .singleton)
          (owner, method, .singleton) value)
    (args : List FoldTail) (results : List Scalar)
    (folded : argValues (hierarchy.foldIndex core fold) values className receiver.2 args =
      some results) :
    hierarchy.ArgsEvaluate fold linearisation sites receiver args results := by
  match args with
  | [] =>
      obtain rfl := Option.some.inj folded
      exact .nil receiver
  | arg :: args =>
      obtain ⟨value, foldedArg, rest⟩ := Option.bind_eq_some_iff.mp folded
      obtain ⟨results, foldedArgs, rfl⟩ := Option.map_eq_some_iff.mp rest
      exact .cons (tailEvaluates_of_tailValue selfCalls constCalls arg value foldedArg)
        (argsEvaluate_of_argValues selfCalls constCalls args results foldedArgs)

end

/-- The gate did not fire for a method with a literal. -/
theorem final_of_iterate {depth : Nat} {key : MethodKey} {value : Scalar}
    (derived : (foldEquations (hierarchy.foldIndex core fold) sites).iterate depth key = some value) :
    hierarchy.overriddenInProject key.1 key.2.1 key.2.2 = false := by
  cases depth with
  | zero => simp [Equations.iterate] at derived
  | succ depth => exact (keyValue_eq_some_iff.mp derived).final

theorem isSome_of_iterate {depth : Nat} {key : MethodKey} {value : Scalar}
    (derived : (foldEquations (hierarchy.foldIndex core fold) sites).iterate depth key = some value) :
    (sites key).isSome = true := by
  cases depth with
  | zero => simp [Equations.iterate] at derived
  | succ depth =>
      obtain ⟨found, defined, -⟩ := (keyValue_eq_some_iff.mp derived).agrees
      simp [defined]

/-- A method evaluates to its literal on every receiver that has the owner among its
ancestors.  The induction is on the depth of the derivation of the literal. -/
theorem methodEvaluates_of_iterate (bodies : Bodies hierarchy.toAncestorTables)
    (unjoined : ∀ kind, hierarchy.Unjoined core fold linearisation kind) (depth : Nat)
    (receiver : Receiver) (key : MethodKey) (value : Scalar) (sameKind : key.2.2 = receiver.2)
    (below : key.1 ∈ linearisation.order receiver.1 receiver.2)
    (derived : (foldEquations (hierarchy.foldIndex core fold) bodies.sites).iterate depth key =
      some value) :
    hierarchy.MethodEvaluates fold linearisation bodies.sites receiver key value := by
  induction depth generalizing receiver key value with
  | zero => simp [Equations.iterate] at derived
  | succ depth ih =>
      obtain ⟨-, -, found, defined, nonempty, agrees⟩ := keyValue_eq_some_iff.mp derived
      have selfCalls : ∀ method called value,
          (hierarchy.foldIndex core fold).resolveSelf key.1 receiver.2 method = some called →
            (foldEquations (hierarchy.foldIndex core fold) bodies.sites).iterate depth called =
              some value → hierarchy.dispatch linearisation receiver method = some called ∧
                hierarchy.MethodEvaluates fold linearisation bodies.sites receiver called value := by
        intro method called value resolved folded
        have sameKey := (resolveSelf_spec resolved).1
        have final := final_of_iterate folded
        rw [sameKey] at final
        constructor
        · exact dispatch_eq (unjoined receiver.2) resolved final below
        · exact ih receiver called value (by rw [sameKey]) (mem_order_of_resolveSelf resolved below)
            folded
      have constCalls : ∀ owner method value,
          (foldEquations (hierarchy.foldIndex core fold) bodies.sites).iterate depth
              (owner, method, .singleton) = some value →
            hierarchy.dispatch linearisation (owner, .singleton) method =
                some (owner, method, .singleton) ∧
              hierarchy.MethodEvaluates fold linearisation bodies.sites (owner, .singleton)
                (owner, method, .singleton) value := by
        intro owner method value folded
        have own : owner ∈ linearisation.order owner .singleton :=
          (linearisation.mem_order _ _ _).mpr (ancestry_refl .singleton owner)
        have resolved : (hierarchy.foldIndex core fold).resolveSelf owner .singleton method =
            some (owner, method, .singleton) := by
          have defines := bodies.defined owner method .singleton ▸ isSome_of_iterate folded
          exact congrArg (Option.map fun slot : Text × DefKind => (slot.1, method, slot.2))
            (AncestorTables.resolveSingletonSlot_self defines)
        constructor
        · exact dispatch_eq (unjoined .singleton) resolved (final_of_iterate folded) own
        · exact ih (owner, .singleton) _ value rfl own folded
      refine .sites defined nonempty (fun site mem => (agrees site mem).1) fun site mem => ?_
      exact tailEvaluates_of_tailValue selfCalls constCalls site.tail value
        (sameKind ▸ (agrees site mem).2)

end Evaluation

theorem foldSound_of_unjoined
    (unjoined : ∀ kind, hierarchy.Unjoined core fold linearisation kind)
    (bodies : Bodies hierarchy.toAncestorTables) (kind : DefKind) :
    hierarchy.FoldSound core fold linearisation bodies kind := by
  intro keys table all returns className method value folds sub below
  obtain rfl := returns.unique (returns_computeLiteralReturns all)
  obtain ⟨key, resolved, found⟩ := Option.bind_eq_some_iff.mp folds
  obtain ⟨depth, derived⟩ := Equations.least_eq_some_iff.mp found
  have sameKey := (resolveSelf_spec resolved).1
  have final := final_of_iterate derived
  rw [sameKey] at final
  refine ⟨key, dispatch_eq (unjoined kind) resolved final below, ?_⟩
  exact methodEvaluates_of_iterate bodies unjoined depth (sub, kind) key value (by rw [sameKey])
    (mem_order_of_resolveSelf resolved below) derived

/-! ## Bodies that tell a joined definer -/

/-- One method is `true`, all others are `false`. -/
def distinguish (tables : AncestorTables Refinement) (key : MethodKey) : Bodies tables where
  sites other :=
    if tables.ownerDefines other.1 other.2.1 other.2.2 then
      some [⟨.scalar (.bool (other = key)), false⟩]
    else none
  defined owner method kind := by
    cases defines : tables.ownerDefines owner method kind <;> simp

/-- The methods of the tables. -/
def definedKeys (tables : AncestorTables Refinement) : List MethodKey :=
  tables.definers.flatMap fun row =>
    (row.2.map fun owner => (owner, row.1)).filter fun key =>
      tables.ownerDefines key.1 key.2.1 key.2.2

theorem mem_definedKeys_iff (bodies : Bodies hierarchy.toAncestorTables) (key : MethodKey) :
    key ∈ definedKeys hierarchy.toAncestorTables ↔ (bodies.sites key).isSome = true := by
  rw [bodies.defined key.1 key.2.1 key.2.2]
  simp only [definedKeys, List.mem_flatMap, List.mem_filter, List.mem_map]
  constructor
  · rintro ⟨row, -, -, defines⟩
    exact defines
  · intro defines
    have listed := defines
    rw [AncestorTables.ownerDefines] at listed
    rcases found : hierarchy.definers.lookup (key.2.1, key.2.2) with _ | owners
    · simp [found] at listed
    · rw [found] at listed
      refine ⟨((key.2.1, key.2.2), owners), Library.Grouping.mem_of_lookup found, ⟨key.1, ?_, rfl⟩,
        defines⟩
      simpa using listed

/-- A method that is defined and not overridden folds to `true` if its body is. -/
theorem least_distinguish {key : MethodKey}
    (defines : hierarchy.ownerDefines key.1 key.2.1 key.2.2 = true)
    (final : hierarchy.overriddenInProject key.1 key.2.1 key.2.2 = false) :
    (foldEquations (hierarchy.foldIndex core fold)
      (distinguish hierarchy.toAncestorTables key).sites).least key = some (.bool true) := by
  rw [least_eq, keyValue_eq_some_iff]
  refine ⟨rfl, final, [⟨.scalar (.bool true), false⟩], ?_, by simp, by simp [tailValue]⟩
  simp [distinguish, defines]

/-- Only the distinguished method gives `true`. -/
theorem eq_of_methodEvaluates_distinguish {receiver : Receiver} {key other : MethodKey}
    (runs : hierarchy.MethodEvaluates fold linearisation
      (distinguish hierarchy.toAncestorTables key).sites receiver other (.bool true)) :
    other = key := by
  cases runs with
  | sites defined nonempty plain runs =>
      simp only [distinguish] at defined
      split at defined
      · obtain rfl := Option.some.inj defined
        have body := runs _ List.mem_cons_self
        by_contra different
        simp only [different, decide_false] at body
        cases body
      · simp at defined

theorem unjoined_of_foldSound {kind : DefKind}
    (sound : ∀ bodies, hierarchy.FoldSound core fold linearisation bodies kind) :
    hierarchy.Unjoined core fold linearisation kind := by
  rintro className method key resolved sub below ⟨final, ahead, behind, split, fresh, definer, mem,
    defines⟩
  obtain ⟨sameKey, ownerDefines, -⟩ := resolveSelf_spec resolved
  rw [sameKey] at resolved
  have literal := @least_distinguish _ hierarchy core fold (key.1, method, kind) ownerDefines final
  obtain ⟨selected, answers, runs⟩ := sound (distinguish _ (key.1, method, kind)) _ _
    (mem_definedKeys_iff _) (returns_computeLiteralReturns (mem_definedKeys_iff _)) className method
    (.bool true) (Option.bind_eq_some_iff.mpr ⟨_, resolved, literal⟩) sub below
  obtain rfl := eq_of_methodEvaluates_distinguish runs
  obtain ⟨owner, first, same⟩ := Option.map_eq_some_iff.mp answers
  have someAhead : (ahead.find? (hierarchy.ownerDefines · method kind)).isSome = true :=
    List.find?_isSome.mpr ⟨definer, mem, defines⟩
  obtain ⟨nearest, found⟩ := Option.isSome_iff_exists.mp someAhead
  rw [split, List.find?_append, found, Option.some_or, Option.some.injEq] at first
  subst first
  exact fresh ((congrArg Prod.fst same) ▸ List.mem_of_find?_eq_some found)

/-- The fold is sound for all bodies exactly if no class joins a resolved owner with an unrelated
definer; for instances, this is so by itself where class objects join none. -/
theorem foldSound_iff_unjoined (hierarchy : FoldHierarchy Refinement) (core : CoreSurface)
    (fold : Scalar → Text → List Scalar → Option Scalar)
    (linearisation : Linearisation hierarchy.toAncestorTables) :
    ((∀ bodies kind, hierarchy.FoldSound core fold linearisation bodies kind) ↔
        ∀ kind, hierarchy.Unjoined core fold linearisation kind) ∧
      (hierarchy.Unjoined core fold linearisation .singleton →
        ((∀ bodies, hierarchy.FoldSound core fold linearisation bodies .inst) ↔
          hierarchy.Unjoined core fold linearisation .inst)) := by
  constructor
  · constructor
    · exact fun sound kind => unjoined_of_foldSound fun bodies => sound bodies kind
    · exact fun unjoined bodies kind => foldSound_of_unjoined unjoined bodies kind
  · intro classObjects
    constructor
    · exact unjoined_of_foldSound
    · intro instances bodies
      apply foldSound_of_unjoined
      rintro (_ | _)
      · exact instances
      · exact classObjects

/-! ## A class that joins two definers -/

/-- A class or module body with a name, methods, and ancestors as written. -/
def plainClass (superclass : Option Text) (includes : List Text) (methods : Finset Text)
    (isModule : Bool) : OverrideClass Unit :=
  ⟨noVisibilities, superclass, includes, [], methods, isModule, []⟩

/-- `module M; def m = false; end; class C; def m = true; end; class S < C; include M; end` -/
def joinedHierarchy : FoldHierarchy Unit where
  overrideClasses :=
    [("M".toList, plainClass none [] {"m".toList} true),
      ("C".toList, plainClass none [] {"m".toList} false),
      ("S".toList, plainClass (some "C".toList) ["M".toList] ∅ false)]
  definers := [(("m".toList, .inst), ["M".toList, "C".toList])]
  ancestry := ⟨[], ∅, ∅, ∅, [("S".toList, [(false, ["M".toList])])], [("M".toList, 1),
    ("C".toList, 1), ("S".toList, 1)], {"M".toList, "C".toList}⟩
  discoveredMethods := []
  unextended := by simp [plainClass]

/-- The order of Ruby: the included module answers before the superclass. -/
def joinedOrder (className : Text) (kind : DefKind) : List Text :=
  if className = "S".toList then
    match kind with
    | .inst => ["S".toList, "M".toList, "C".toList]
    | .singleton => ["S".toList, "C".toList]
  else [className]

/-- Only `S` has ancestors. -/
theorem plain_of_lookup_joined {className : Text} {entry : OverrideClass Unit}
    (found : joinedHierarchy.overrideClasses.lookup className = some entry)
    (notS : className ≠ "S".toList) : entry.superclass = none ∧ entry.includes = [] := by
  have mem := Library.Grouping.mem_of_lookup found
  simp only [joinedHierarchy, List.mem_cons, Prod.mk.injEq, List.not_mem_nil, or_false] at mem
  rcases mem with ⟨rfl, rfl⟩ | ⟨rfl, rfl⟩ | ⟨rfl, rfl⟩
  · exact ⟨rfl, rfl⟩
  · exact ⟨rfl, rfl⟩
  · exact absurd rfl notS

theorem ancestorEdge_joined_iff (sub sup : Text) :
    joinedHierarchy.AncestorEdge sub sup ↔ sub = "S".toList ∧ sup ∈ ["M".toList, "C".toList] := by
  by_cases isS : sub = "S".toList
  · subst isS
    rw [AncestorTables.AncestorEdge,
      show joinedHierarchy.overrideAncestorNames "S".toList = ["M".toList, "C".toList] by decide]
    simp
  · apply iff_of_false _ fun root => isS root.1
    rw [AncestorTables.AncestorEdge, AncestorTables.overrideAncestorNames]
    rcases found : joinedHierarchy.overrideClasses.lookup sub with _ | entry
    · simp
    · obtain ⟨noSuperclass, noIncludes⟩ := plain_of_lookup_joined found isS
      simp [noSuperclass, noIncludes]

theorem superclassEdge_joined_iff (sub sup : Text) :
    joinedHierarchy.SuperclassEdge sub sup ↔ sub = "S".toList ∧ sup ∈ ["C".toList] := by
  by_cases isS : sub = "S".toList
  · subst isS
    rw [AncestorTables.SuperclassEdge,
      show joinedHierarchy.projectSuperclass "S".toList = some "C".toList by decide]
    simp [eq_comm]
  · apply iff_of_false _ fun root => isS root.1
    rw [AncestorTables.SuperclassEdge, AncestorTables.projectSuperclass]
    rcases found : joinedHierarchy.overrideClasses.lookup sub with _ | entry
    · simp
    · simp [(plain_of_lookup_joined found isS).1]

/-- What is reached where only one node has edges, none of them to itself. -/
theorem reflTransGen_iff_of_root {edge : Text → Text → Prop} {root : Text} {tops : List Text}
    (edges : ∀ sub sup, edge sub sup ↔ sub = root ∧ sup ∈ tops) (fresh : root ∉ tops)
    (sub sup : Text) :
    Relation.ReflTransGen edge sub sup ↔ sup = sub ∨ (sub = root ∧ sup ∈ tops) := by
  constructor
  · intro path
    induction path with
    | refl => exact .inl rfl
    | tail path step ih =>
        obtain ⟨rfl, mem⟩ := (edges _ _).mp step
        rcases ih with rfl | ⟨-, again⟩
        · exact .inr ⟨rfl, mem⟩
        · exact absurd again fresh
  · rintro (rfl | reached)
    · exact .refl
    · exact .single ((edges sub sup).mpr reached)

def joinedLinearisation : Linearisation joinedHierarchy.toAncestorTables where
  order := joinedOrder
  mem_order className kind ancestor := by
    cases kind with
    | inst =>
        rw [AncestorTables.Ancestry,
          reflTransGen_iff_of_root ancestorEdge_joined_iff (by decide) className ancestor]
        by_cases isS : className = "S".toList
        · simp [joinedOrder, isS]
        · simp only [joinedOrder, isS, if_false, List.mem_singleton, false_and, or_false]
    | singleton =>
        rw [AncestorTables.Ancestry,
          reflTransGen_iff_of_root superclassEdge_joined_iff (by decide) className ancestor]
        by_cases isS : className = "S".toList
        · simp [joinedOrder, isS]
        · simp only [joinedOrder, isS, if_false, List.mem_singleton, false_and, or_false]

/-- Signatures that know no class. -/
def emptySurface : CoreSurface :=
  ⟨fun _ => false, fun _ _ => false, fun _ => false, fun _ _ => false⟩

/-- `m` of `C` folds to `true`, and `m` of `M` answers on an instance of `S` with `false`. -/
theorem not_foldSound_joined : ¬ joinedHierarchy.FoldSound emptySurface (fun _ _ _ => none)
    joinedLinearisation (distinguish _ ("C".toList, "m".toList, .inst)) .inst := by
  intro sound
  have literal := @least_distinguish _ joinedHierarchy emptySurface (fun _ _ _ => none)
    ("C".toList, "m".toList, .inst) (by decide) (by decide)
  have resolved : (joinedHierarchy.foldIndex emptySurface fun _ _ _ => none).resolveSelf "C".toList
      .inst "m".toList = some ("C".toList, "m".toList, .inst) := by decide
  obtain ⟨selected, answers, runs⟩ := sound _ _ (mem_definedKeys_iff _)
    (returns_computeLiteralReturns (mem_definedKeys_iff _)) "C".toList "m".toList (.bool true)
    (Option.bind_eq_some_iff.mpr ⟨_, resolved, literal⟩) "S".toList (by decide)
  obtain rfl := eq_of_methodEvaluates_distinguish runs
  revert answers
  decide

end FoldHierarchy

end Rigor.Infer.Source
