import Mathlib.Data.List.Basic
import Mathlib.Data.List.Forall2
import Rigor.Types.Ty

/-!
# Multiple assignment

The binder splits the type of a right-hand side over the targets of `a, (b, *c), d = rhs`, where
Ruby splits the array.  Types stand here with their handles resolved.
-/

namespace Rigor.Infer.MultiTargetBinder

open Rigor.Types (Carrier Scalar)

universe u

/-- The targets before the splat, the splat, and the targets after it. -/
structure TargetGroup (α : Type u) where
  lefts : List α
  rest : Option α
  rights : List α

/-- One slot of a multiple assignment.  An index target stores and binds no name. -/
inductive MultiTarget where
  | localTarget (name : Text)
  | nested (inner : TargetGroup MultiTarget)
  | indexTarget
  | ignored

abbrev MultiTargets :=
  TargetGroup MultiTarget

/-! ## The lowered targets -/

/-- What Prism has in place of a splat: `*target`, a bare `*`, or the end of `a, = rhs`. -/
inductive PrismRest (α : Type u) where
  | splat (expression : Option α)
  | implicitRest

structure PrismTargetGroup (α : Type u) where
  lefts : List α
  rest : Option (PrismRest α)
  rights : List α

inductive PrismTarget where
  | localVariableTarget (name : Text)
  | multiTarget (inner : PrismTargetGroup PrismTarget)
  | indexTarget
  | other

mutual

def lowerMultiTarget : PrismTarget → MultiTarget
  | .localVariableTarget name => .localTarget name
  | .multiTarget ⟨lefts, rest, rights⟩ =>
      .nested ⟨lowerAll lefts, lowerRest rest, lowerAll rights⟩
  | .indexTarget => .indexTarget
  | .other => .ignored

def lowerAll : List PrismTarget → List MultiTarget
  | [] => []
  | target :: targets => lowerMultiTarget target :: lowerAll targets

/-- A group below a splat is ignored. -/
def lowerRest : Option (PrismRest PrismTarget) → Option MultiTarget
  | none => none
  | some .implicitRest => some .ignored
  | some (.splat none) => some .ignored
  | some (.splat (some expression)) =>
      match lowerMultiTarget expression with
      | .nested _ => some .ignored
      | target => some target

end

def lowerMultiTargets (node : PrismTargetGroup PrismTarget) : MultiTargets :=
  ⟨lowerAll node.lefts, lowerRest node.rest, lowerAll node.rights⟩

/-! ## The binder -/

/-- A type whose handles are resolved. -/
inductive ResolvedTy where
  | mk (carrier : Carrier ResolvedTy)

namespace ResolvedTy

def nil : ResolvedTy :=
  mk (.constant .nil)

/-- `Dynamic[top]`. -/
def untyped : ResolvedTy :=
  mk (.dynamic (mk .top))

def isNilLiteral : ResolvedTy → Bool
  | mk (.constant .nil) => true
  | _ => false

end ResolvedTy

/-- The types of the slots. -/
structure Slots (α : Type u) where
  fronts : List α
  rest : Option α
  backs : List α

section Binder

variable (join : ResolvedTy → ResolvedTy → ResolvedTy)

/-- A union with `nil` loses it, unless it is nothing but `nil`. -/
def softenOptionalSlot : ResolvedTy → ResolvedTy
  | .mk (.union members) =>
      if members.any ResolvedTy.isNilLiteral then
        match members.filter fun member => !member.isNilLiteral with
        | [] => .mk (.union members)
        | first :: rest => rest.foldl join first
      else .mk (.union members)
  | element => element

def slotType (elements : List ResolvedTy) (index : Nat) : ResolvedTy :=
  match elements[index]? with
  | none => .nil
  | some element => softenOptionalSlot join element

/-- `[elements.size - back_count, front_count].max`, in signed arithmetic. -/
def middleEnd (size frontCount backCount : Nat) : Nat :=
  (max ((size : Int) - backCount) frontCount).toNat

def decomposeTuple (elements : List ResolvedTy) (frontCount backCount : Nat) (restPresent : Bool) :
    Slots ResolvedTy :=
  let fronts := (List.range frontCount).map (slotType join elements)
  if restPresent then
    let stop := middleEnd elements.length frontCount backCount
    let middle :=
      if elements.length ≤ frontCount then []
      else (elements.take (min stop elements.length)).drop frontCount
    ⟨fronts, some (.mk (.tuple middle)),
      (List.range backCount).map fun i => slotType join elements (stop + i)⟩
  else
    ⟨fronts, none, (List.range backCount).map fun i => slotType join elements (frontCount + i)⟩

/-- Every slot of a type that is no tuple is untyped. -/
def decomposeDefault (frontCount backCount : Nat) (restPresent : Bool) : Slots ResolvedTy :=
  ⟨List.replicate frontCount .untyped, if restPresent then some .untyped else none,
    List.replicate backCount .untyped⟩

def decompose (rhsType : ResolvedTy) (frontCount backCount : Nat) (restPresent : Bool) :
    Slots ResolvedTy :=
  match rhsType with
  | .mk (.tuple elements) => decomposeTuple join elements frontCount backCount restPresent
  | _ => decomposeDefault frontCount backCount restPresent

/-- Only a local below a splat binds. -/
def bindRestTarget : Option MultiTarget → Option ResolvedTy → List (Text × ResolvedTy)
  | some (.localTarget name), some ty => [(name, ty)]
  | _, _ => []

mutual

def bindTarget : MultiTarget → ResolvedTy → List (Text × ResolvedTy)
  | .localTarget name, ty => [(name, ty)]
  | .nested inner, ty => visit inner ty
  | .indexTarget, _ => []
  | .ignored, _ => []

def bindTargets : List MultiTarget → List ResolvedTy → List (Text × ResolvedTy)
  | target :: targets, ty :: types => bindTarget target ty ++ bindTargets targets types
  | _, _ => []

def visit : MultiTargets → ResolvedTy → List (Text × ResolvedTy)
  | ⟨lefts, rest, rights⟩, rhsType =>
      let slots := decompose join rhsType lefts.length rights.length rest.isSome
      bindTargets lefts slots.fronts ++ bindRestTarget rest slots.rest ++
        bindTargets rights slots.backs

end

/-- The names with their types, in source order. -/
def bind (targets : MultiTargets) (rhsType : ResolvedTy) : List (Text × ResolvedTy) :=
  visit join targets rhsType

end Binder

/-! ## What Ruby does -/

/-- Runtime values: an array, `nil`, or an object that is no array. -/
inductive Value (Object : Type u) where
  | nil
  | array (elements : List (Value Object))
  | object (object : Object)

section Ruby

variable {Object : Type u}

/-- The array that a value is destructured as. -/
def Value.toArray : Value Object → List (Value Object)
  | .array elements => elements
  | value => [value]

/-- The element, or `nil` past the end. -/
def elementAt (values : List (Value Object)) (i : Nat) : Value Object :=
  values[i]?.getD .nil

/-- Behind the leading targets the splat takes what the trailing targets leave. -/
def split (values : List (Value Object)) (frontCount backCount : Nat) (restPresent : Bool) :
    Slots (Value Object) :=
  let remaining := values.drop frontCount
  let spare := if restPresent then remaining.length - backCount else 0
  ⟨(List.range frontCount).map (elementAt values),
    if restPresent then some (.array (remaining.take spare)) else none,
    (List.range backCount).map (elementAt (remaining.drop spare))⟩

mutual

def assignTarget : MultiTarget → Value Object → List (Text × Value Object)
  | .localTarget name, value => [(name, value)]
  | .nested inner, value => assignAll inner value.toArray
  | .indexTarget, _ => []
  | .ignored, _ => []

def assignTargets : List MultiTarget → List (Value Object) → List (Text × Value Object)
  | target :: targets, value :: values => assignTarget target value ++ assignTargets targets values
  | _, _ => []

/-- The locals that a splat assigns, below it too. -/
def assignRest : Option MultiTarget → Option (Value Object) → List (Text × Value Object)
  | some target, some value => assignTarget target value
  | _, _ => []

/-- The assignments to locals, in the order in which Ruby performs them. -/
def assignAll : MultiTargets → List (Value Object) → List (Text × Value Object)
  | ⟨lefts, rest, rights⟩, values =>
      let slots := split values lefts.length rights.length rest.isSome
      assignTargets lefts slots.fronts ++ assignRest rest slots.rest ++
        assignTargets rights slots.backs

end

end Ruby

/-! ## What a type promises -/

section Types

variable {Object : Type u}

/-- The carriers that the binder treats alike. -/
def Unread : Carrier ResolvedTy → Prop
  | .tuple _ => False
  | .union _ => False
  | .dynamic _ => False
  | .constant .nil => False
  | _ => True

/-- The value inhabits the type.  Of the other carriers the values are given. -/
inductive Inhabits (admits : Carrier ResolvedTy → Value Object → Prop) :
    Value Object → ResolvedTy → Prop where
  | nil : Inhabits admits .nil .nil
  | dynamic {value : Value Object} {facet : ResolvedTy} :
      Inhabits admits value (.mk (.dynamic facet))
  | tuple {values : List (Value Object)} {elements : List ResolvedTy}
      (each : List.Forall₂ (Inhabits admits) values elements) :
      Inhabits admits (.array values) (.mk (.tuple elements))
  | union {value : Value Object} {member : ResolvedTy} {members : List ResolvedTy}
      (mem : member ∈ members) (inhabits : Inhabits admits value member) :
      Inhabits admits value (.mk (.union members))
  | other {value : Value Object} {carrier : Carrier ResolvedTy} (unread : Unread carrier)
      (admitted : admits carrier value) : Inhabits admits value (.mk carrier)

/-- A union of `nil` and something else. -/
def ResolvedTy.Optional (ty : ResolvedTy) : Prop :=
  ∃ members, ty = .mk (.union members) ∧ members.any ResolvedTy.isNilLiteral = true

/-- The type is no optional union, nor is an element of it, if it is a tuple. -/
inductive ResolvedTy.Strict : ResolvedTy → Prop where
  | intro {ty : ResolvedTy} (required : ¬ ty.Optional)
      (elements : ∀ items, ty = .mk (.tuple items) → ∀ item ∈ items, item.Strict) : ty.Strict

mutual

/-- No group of targets stands below a splat. -/
def Plain : MultiTarget → Prop
  | .nested ⟨lefts, rest, rights⟩ =>
      PlainAll lefts ∧ (∀ inner, rest ≠ some (.nested inner)) ∧ PlainAll rights
  | _ => True

def PlainAll : List MultiTarget → Prop
  | [] => True
  | target :: targets => Plain target ∧ PlainAll targets

end

def PlainGroup (targets : MultiTargets) : Prop :=
  Plain (.nested targets)

/-- The binding of a name that is made last. -/
def lastBinding {α : Type u} (bindings : List (Text × α)) (name : Text) : Option α :=
  bindings.reverse.lookup name

end Types

/-! ## The lowered trees -/

theorem lowerRest_ne_nested (rest : Option (PrismRest PrismTarget)) (inner : MultiTargets) :
    lowerRest rest ≠ some (.nested inner) := by
  cases rest with
  | none => simp [lowerRest]
  | some rest =>
      cases rest with
      | implicitRest => simp [lowerRest]
      | splat expression =>
          cases expression with
          | none => simp [lowerRest]
          | some expression =>
              rw [lowerRest]
              split
              · simp
              next apart => simpa using fun same => apart inner same

mutual

theorem plain_lowerMultiTarget : ∀ target : PrismTarget, Plain (lowerMultiTarget target)
  | .localVariableTarget _ => trivial
  | .multiTarget ⟨lefts, rest, rights⟩ =>
      ⟨plainAll_lowerAll lefts, lowerRest_ne_nested rest, plainAll_lowerAll rights⟩
  | .indexTarget => trivial
  | .other => trivial

theorem plainAll_lowerAll : ∀ targets : List PrismTarget, PlainAll (lowerAll targets)
  | [] => trivial
  | target :: targets => ⟨plain_lowerMultiTarget target, plainAll_lowerAll targets⟩

end

/-- Every lowered tree is plain. -/
theorem plainGroup_lowerMultiTargets (node : PrismTargetGroup PrismTarget) :
    PlainGroup (lowerMultiTargets node) :=
  ⟨plainAll_lowerAll node.lefts, lowerRest_ne_nested node.rest, plainAll_lowerAll node.rights⟩

/-! ## Slot by slot -/

section Alignment

variable {Object : Type u} {admits : Carrier ResolvedTy → Value Object → Prop}
  {join : ResolvedTy → ResolvedTy → ResolvedTy} {elements : List ResolvedTy}
  {values : List (Value Object)} {frontCount backCount : Nat}

/-- The slot holds a value of its type, which is no optional union. -/
def Fills (admits : Carrier ResolvedTy → Value Object → Prop) (value : Value Object)
    (ty : ResolvedTy) : Prop :=
  Inhabits admits value ty ∧ ty.Strict

theorem strict_of_flat {carrier : Carrier ResolvedTy} (noUnion : ∀ members, carrier ≠ .union members)
    (noTuple : ∀ items, carrier ≠ .tuple items) : (ResolvedTy.mk carrier).Strict := by
  refine .intro ?_ ?_
  · rintro ⟨members, same, _⟩
    exact noUnion members (ResolvedTy.mk.inj same)
  · intro items same
    exact absurd (ResolvedTy.mk.inj same) (noTuple items)

theorem strict_tuple {items : List ResolvedTy} (each : ∀ item ∈ items, item.Strict) :
    (ResolvedTy.mk (.tuple items)).Strict := by
  refine .intro ?_ ?_
  · rintro ⟨members, same, _⟩
    exact nomatch same
  · intro others same
    cases same
    exact each

theorem fills_nil : Fills admits .nil .nil :=
  ⟨.nil, strict_of_flat (fun _ => nofun) fun _ => nofun⟩

theorem fills_untyped (value : Value Object) : Fills admits value .untyped :=
  ⟨.dynamic, strict_of_flat (fun _ => nofun) fun _ => nofun⟩

theorem softenOptionalSlot_of_strict {ty : ResolvedTy} (strict : ty.Strict) :
    softenOptionalSlot join ty = ty := by
  cases strict with
  | intro required items =>
      unfold softenOptionalSlot
      split
      next _ members =>
        rw [if_neg fun optional => required ⟨members, rfl, optional⟩]
      next => rfl

variable (join) in
theorem fills_slot (filled : List.Forall₂ (Fills admits) values elements) (i : Nat) :
    Fills admits (elementAt values i) (slotType join elements i) := by
  induction filled generalizing i with
  | nil => exact fills_nil
  | @cons value ty values elements first rest ih =>
      cases i with
      | zero =>
          have soft : slotType join (ty :: elements) 0 = ty := softenOptionalSlot_of_strict first.2
          rw [soft]
          exact first
      | succ i => exact ih i

variable (join) in
theorem fills_slots (filled : List.Forall₂ (Fills admits) values elements) (offset count : Nat) :
    List.Forall₂ (Fills admits) ((List.range count).map fun i => elementAt values (offset + i))
      ((List.range count).map fun i => slotType join elements (offset + i)) := by
  rw [List.forall₂_map_left_iff, List.forall₂_map_right_iff, List.forall₂_same]
  exact fun i _ => fills_slot join filled (offset + i)

theorem elementAt_drop (values : List (Value Object)) (offset i : Nat) :
    elementAt (values.drop offset) i = elementAt values (offset + i) := by
  rw [elementAt, elementAt, List.getElem?_drop]

/-- The trailing targets start where the splat ends. -/
theorem middleEnd_eq (size : Nat) :
    middleEnd size frontCount backCount = frontCount + (size - frontCount - backCount) := by
  unfold middleEnd
  omega

theorem middle_eq {α : Type u} (items : List α) :
    (if items.length ≤ frontCount then []
      else (items.take (min (middleEnd items.length frontCount backCount) items.length)).drop
        frontCount) =
      (items.drop frontCount).take (items.length - frontCount - backCount) := by
  rw [middleEnd_eq]
  split
  next short => rw [List.drop_eq_nil_of_le short, List.take_nil]
  next long =>
    have bounded : frontCount + (items.length - frontCount - backCount) ≤ items.length := by omega
    rw [Nat.min_eq_left bounded, List.drop_take, Nat.add_sub_cancel_left]

/-- The optional slots are both there or both missing. -/
def FillsRest (admits : Carrier ResolvedTy → Value Object → Prop) :
    Option (Value Object) → Option ResolvedTy → Prop
  | none, none => True
  | some value, some ty => Inhabits admits value ty
  | _, _ => False

/-- The slots hold values of their types. -/
structure FillsSlots (admits : Carrier ResolvedTy → Value Object → Prop)
    (values : Slots (Value Object)) (types : Slots ResolvedTy) : Prop where
  fronts : List.Forall₂ (Fills admits) values.fronts types.fronts
  rest : FillsRest admits values.rest types.rest
  backs : List.Forall₂ (Fills admits) values.backs types.backs

variable (join) in
/-- The slots of a tuple hold what Ruby puts into them. -/
theorem fills_decomposeTuple (filled : List.Forall₂ (Fills admits) values elements)
    (frontCount backCount : Nat) (restPresent : Bool) :
    FillsSlots admits (split values frontCount backCount restPresent)
      (decomposeTuple join elements frontCount backCount restPresent) := by
  have sizes : values.length = elements.length := filled.length_eq
  have fronts := fills_slots join filled 0 frontCount
  simp only [Nat.zero_add] at fronts
  cases restPresent with
  | false =>
      have backs := fills_slots join filled frontCount backCount
      refine ⟨fronts, trivial, ?_⟩
      simpa only [split, decomposeTuple, Bool.false_eq_true, if_false, List.drop_zero,
        funext (elementAt_drop values frontCount)] using backs
  | true =>
      have backs := fills_slots join filled (middleEnd elements.length frontCount backCount) backCount
      have middle : List.Forall₂ (Fills admits)
          ((values.drop frontCount).take (values.length - frontCount - backCount))
          ((elements.drop frontCount).take (elements.length - frontCount - backCount)) := by
        rw [sizes]
        exact List.forall₂_take _ (List.forall₂_drop _ filled)
      refine ⟨fronts, ?_, ?_⟩
      · simp only [split, decomposeTuple, if_true, List.length_drop, middle_eq]
        exact .tuple (middle.imp fun _ _ fills => fills.1)
      · rw [middleEnd_eq, ← sizes] at backs
        have moved : elementAt ((values.drop frontCount).drop (values.length - frontCount - backCount)) =
            fun i => elementAt values (frontCount + (values.length - frontCount - backCount) + i) := by
          funext i
          rw [elementAt_drop, elementAt_drop, Nat.add_assoc]
        simpa only [split, decomposeTuple, if_true, List.length_drop, moved, middleEnd_eq, ← sizes]
          using backs

variable (admits) in
theorem fills_replicate (values : List (Value Object)) :
    List.Forall₂ (Fills admits) values (List.replicate values.length .untyped) := by
  induction values with
  | nil => exact .nil
  | cons value values ih => exact .cons (fills_untyped value) ih

theorem fills_decomposeDefault (values : List (Value Object)) (frontCount backCount : Nat)
    (restPresent : Bool) :
    FillsSlots admits (split values frontCount backCount restPresent)
      (decomposeDefault frontCount backCount restPresent) := by
  have fronts := fills_replicate admits (split values frontCount backCount restPresent).fronts
  have backs := fills_replicate admits (split values frontCount backCount restPresent).backs
  simp only [split, List.length_map, List.length_range] at fronts backs
  refine ⟨fronts, ?_, backs⟩
  cases restPresent with
  | false => exact trivial
  | true => exact .dynamic

theorem fills_of_inhabits (each : List.Forall₂ (Inhabits admits) values elements)
    (strict : ∀ ty ∈ elements, ty.Strict) : List.Forall₂ (Fills admits) values elements := by
  induction each with
  | nil => exact .nil
  | cons first _ ih =>
      rw [List.forall_mem_cons] at strict
      exact .cons ⟨first, strict.1⟩ (ih strict.2)

variable (join) in
/-- A value of the type, taken as an array, fills the slots of the type. -/
theorem fills_decompose {value : Value Object} {ty : ResolvedTy} (fills : Fills admits value ty)
    (frontCount backCount : Nat) (restPresent : Bool) :
    FillsSlots admits (split value.toArray frontCount backCount restPresent)
      (decompose join ty frontCount backCount restPresent) := by
  rcases fills with ⟨inhabits, strict⟩
  unfold decompose
  split
  next items =>
    cases inhabits with
    | tuple each =>
        cases strict with
        | intro _ inner =>
            exact fills_decomposeTuple join (fills_of_inhabits each (inner items rfl)) frontCount backCount
              restPresent
    | other unread _ => exact unread.elim
  next => exact fills_decomposeDefault _ frontCount backCount restPresent

/-! ## Target by target -/

/-- The binding gives the name a type of the assigned value. -/
def Agrees (admits : Carrier ResolvedTy → Value Object → Prop) (assigned : Text × Value Object)
    (bound : Text × ResolvedTy) : Prop :=
  assigned.1 = bound.1 ∧ Inhabits admits assigned.2 bound.2

theorem agrees_rest {rest : Option MultiTarget} (plain : ∀ inner, rest ≠ some (.nested inner))
    {value : Option (Value Object)} {ty : Option ResolvedTy} (fills : FillsRest admits value ty) :
    List.Forall₂ (Agrees admits) (assignRest rest value) (bindRestTarget rest ty) := by
  cases rest with
  | none => exact .nil
  | some target =>
      cases value with
      | none =>
          cases ty with
          | none => cases target <;> exact .nil
          | some ty => exact fills.elim
      | some value =>
          cases ty with
          | none => exact fills.elim
          | some ty =>
              cases target with
              | localTarget name => exact .cons ⟨rfl, fills⟩ .nil
              | nested inner => exact absurd rfl (plain inner)
              | indexTarget => exact .nil
              | ignored => exact .nil

variable (join)

mutual

theorem agrees_target : ∀ target : MultiTarget, Plain target → ∀ {value : Value Object} {ty : ResolvedTy},
    Fills admits value ty →
      List.Forall₂ (Agrees admits) (assignTarget target value) (bindTarget join target ty)
  | .localTarget _, _, _, _, fills => .cons ⟨rfl, fills.1⟩ .nil
  | .nested ⟨lefts, rest, rights⟩, ⟨plainLefts, plainRest, plainRights⟩, _, _, fills => by
      have slots := fills_decompose join fills lefts.length rights.length rest.isSome
      rw [assignTarget, bindTarget, assignAll, visit]
      exact List.rel_append
        (List.rel_append (agrees_targets lefts plainLefts slots.fronts)
          (agrees_rest plainRest slots.rest))
        (agrees_targets rights plainRights slots.backs)
  | .indexTarget, _, _, _, _ => .nil
  | .ignored, _, _, _, _ => .nil

theorem agrees_targets : ∀ targets : List MultiTarget, PlainAll targets →
    ∀ {values : List (Value Object)} {types : List ResolvedTy},
      List.Forall₂ (Fills admits) values types →
        List.Forall₂ (Agrees admits) (assignTargets targets values) (bindTargets join targets types)
  | [], _, _, _, _ => .nil
  | _ :: _, _, _, _, .nil => .nil
  | target :: targets, ⟨plain, plains⟩, _, _, .cons fills rest =>
      List.rel_append (agrees_target target plain fills) (agrees_targets targets plains rest)

end

/-- The last assignment to a name is that of its last binding. -/
theorem agrees_lookup {assigned : List (Text × Value Object)} {bound : List (Text × ResolvedTy)}
    (agree : List.Forall₂ (Agrees admits) assigned bound) {name : Text} {ty : ResolvedTy}
    (found : bound.lookup name = some ty) :
    ∃ value, assigned.lookup name = some value ∧ Inhabits admits value ty := by
  induction agree with
  | nil => exact nomatch found
  | @cons first last assigned bound same _ ih =>
      rcases first with ⟨key, value⟩
      rcases last with ⟨key', ty'⟩
      rcases same with ⟨rfl, inhabits⟩
      rw [List.lookup_cons] at found ⊢
      cases here : name == key with
      | true =>
          rw [here] at found
          cases found
          exact ⟨value, rfl, inhabits⟩
      | false =>
          rw [here] at found
          exact ih found

end Alignment

section Correctness

variable {Object : Type u}

/-- Each name is bound to a type of the value that Ruby assigns to it. -/
theorem bind_inhabited (admits : Carrier ResolvedTy → Value Object → Prop)
    (join : ResolvedTy → ResolvedTy → ResolvedTy) (targets : MultiTargets) (plain : PlainGroup targets)
    (elements : List ResolvedTy) (strict : ∀ element ∈ elements, element.Strict)
    (values : List (Value Object)) (inhabit : List.Forall₂ (Inhabits admits) values elements)
    (name : Text) (ty : ResolvedTy)
    (bound : lastBinding (bind join targets (.mk (.tuple elements))) name = some ty) :
    ∃ value, lastBinding (assignAll targets values) name = some value ∧
      Inhabits admits value ty := by
  have whole : Fills admits (.array values) (.mk (.tuple elements)) :=
    ⟨.tuple inhabit, strict_tuple strict⟩
  have agree : List.Forall₂ (Agrees admits) (assignAll targets values)
      (visit join targets (.mk (.tuple elements))) := by
    have nested := agrees_target join (.nested targets) plain whole
    rwa [assignTarget, bindTarget] at nested
  exact agrees_lookup (List.rel_reverse agree) bound

/-- The targets of `a, (b, *c), *d, e = rhs`. -/
def sampleTargets : MultiTargets :=
  lowerMultiTargets
    ⟨[.localVariableTarget "a".toList,
        .multiTarget ⟨[.localVariableTarget "b".toList],
          some (.splat (some (.localVariableTarget "c".toList))), []⟩],
      some (.splat (some (.localVariableTarget "d".toList))), [.localVariableTarget "e".toList]⟩

def intTy (n : Int64) : ResolvedTy :=
  .mk (.constant (.int n))

/-- An integer inhabits its literal type. -/
def admitsInt (carrier : Carrier ResolvedTy) (value : Value Int64) : Prop :=
  ∃ n, carrier = .constant (.int n) ∧ value = .object n

theorem strict_intTy (n : Int64) : (intTy n).Strict :=
  strict_of_flat (fun _ => nofun) fun _ => nofun

theorem inhabits_intTy (n : Int64) : Inhabits admitsInt (.object n) (intTy n) :=
  .other trivial ⟨n, rfl, rfl⟩

theorem strict_pair : (ResolvedTy.mk (.tuple [intTy 2, intTy 3])).Strict := by
  apply strict_tuple
  simp only [List.forall_mem_cons, strict_intTy, true_and, List.not_mem_nil, false_imp_iff,
    implies_true]

theorem bind_inhabited_sample :
    ∃ value, lastBinding (assignAll sampleTargets
        [.object 1, .array [.object 2, .object 3], .object 4]) "c".toList = some value ∧
      Inhabits admitsInt value (.mk (.tuple [intTy 3])) :=
  bind_inhabited admitsInt (fun ty _ => ty) sampleTargets (plainGroup_lowerMultiTargets _)
    [intTy 1, .mk (.tuple [intTy 2, intTy 3]), intTy 4]
    (by simp only [List.forall_mem_cons, strict_intTy, strict_pair, true_and, List.not_mem_nil,
      false_imp_iff, implies_true])
    [.object 1, .array [.object 2, .object 3], .object 4]
    (.cons (inhabits_intTy 1)
      (.cons (.tuple (.cons (inhabits_intTy 2) (.cons (inhabits_intTy 3) .nil)))
        (.cons (inhabits_intTy 4) .nil)))
    "c".toList (.mk (.tuple [intTy 3])) rfl

end Correctness

end Rigor.Infer.MultiTargetBinder
