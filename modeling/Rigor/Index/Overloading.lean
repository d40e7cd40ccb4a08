import Mathlib.Algebra.BigOperators.Group.Multiset.Basic
import Mathlib.Algebra.Order.BigOperators.Group.Multiset
import Mathlib.Data.List.Pairwise
import Rigor.Index.Declarations

/-!
# Overloading reopens

A declaration `def m: ... | ...` reopens a method: its overloads come before those of the
original, which another declaration supplies.  The declarations of a class are merged one
after the other, and a reopen may come before its original.  The results here say which
parts of the merged method depend on the order.
-/

namespace Rigor.Index

universe u v

/-- A method's name and whether it is a singleton method.  Every map of an entry is keyed so,
and each loop of the merge treats the keys on their own. -/
abbrev MethodKey :=
  Text × Bool

/-! ## Combining two signatures -/

/-- The union of two envelopes.  An ineligible side makes the whole method ineligible. -/
def uniteArity : Option (Nat × Option Nat) → Option (Nat × Option Nat) → Option (Nat × Option Nat)
  | some (lowA, highA), some (lowB, highB) =>
      some (min lowA lowB,
        match highA, highB with
        | some a, some b => some (max a b)
        | _, _ => none)
  | _, _ => none

/-- The return and its flag survive where both sides agree. -/
def agreeReturn (original reopen : Option Text × Bool) : Option Text × Bool :=
  if original.1.isSome ∧ original.1 = reopen.1 ∧ original.2 = reopen.2 then original
  else (none, false)

def combineOverloading (original reopen : MethodSlot) : MethodSlot :=
  let agreed := agreeReturn (original.ret, original.nilable) (reopen.ret, reopen.nilable)
  ⟨agreed.1, uniteArity original.arity reopen.arity, agreed.2⟩

theorem uniteArity_comm (a b : Option (Nat × Option Nat)) : uniteArity a b = uniteArity b a := by
  rcases a with _ | ⟨lowA, _ | highA⟩ <;> rcases b with _ | ⟨lowB, _ | highB⟩ <;>
    simp [uniteArity, Nat.min_comm, Nat.max_comm]

theorem uniteArity_assoc (a b c : Option (Nat × Option Nat)) :
    uniteArity (uniteArity a b) c = uniteArity a (uniteArity b c) := by
  rcases a with _ | ⟨lowA, _ | highA⟩ <;> rcases b with _ | ⟨lowB, _ | highB⟩ <;>
    rcases c with _ | ⟨lowC, _ | highC⟩ <;>
    simp [uniteArity, Nat.min_assoc, Nat.max_assoc]

theorem agreeReturn_comm (a b : Option Text × Bool) : agreeReturn a b = agreeReturn b a := by
  unfold agreeReturn
  grind

theorem agreeReturn_assoc (a b c : Option Text × Bool) :
    agreeReturn (agreeReturn a b) c = agreeReturn a (agreeReturn b c) := by
  unfold agreeReturn
  grind

theorem combineOverloading_comm (a b : MethodSlot) :
    combineOverloading a b = combineOverloading b a := by
  rw [combineOverloading, combineOverloading, agreeReturn_comm, uniteArity_comm]

theorem combineOverloading_assoc (a b c : MethodSlot) :
    combineOverloading (combineOverloading a b) c =
      combineOverloading a (combineOverloading b c) := by
  simp only [combineOverloading, Prod.eta, agreeReturn_assoc, uniteArity_assoc]

/-- Two reopens as one, with the void bit of both. -/
def combineReopen (a b : MethodSlot × Bool) : MethodSlot × Bool :=
  (combineOverloading a.1 b.1, a.2 && b.2)

instance : Std.Commutative combineReopen where
  comm a b := by
    rw [combineReopen, combineReopen, combineOverloading_comm, Bool.and_comm]

instance : Std.Associative combineReopen where
  assoc a b c := by
    simp only [combineReopen, combineOverloading_assoc, Bool.and_assoc]

/-! ## The merge -/

/-- What an entry holds for one method key: the flat slot with its marks and side slots, the
retained overloads, and what else declares the key. -/
structure MethodEntry (Shapes : Type u) (Sig : Type v) where
  method : Option MethodSlot := none
  isVoid : Bool := false
  isPrivate : Bool := false
  tupleReturn : Option Shapes := none
  blockReturn : Option Text := none
  blockFreeReturn : Option Text := none
  overloads : Option (List Sig) := none
  aliased : Option Text := none
  attr : Bool := false
  /-- Set while the slot holds only reopens, to their void bit. -/
  pending : Option Bool := none
  overloadingMethods : List (MethodSlot × Bool) := []
  overloadingOverloads : List (List Sig) := []

/-- The reopens of an entry, and the original it brings for a pending key with its void and
private marks. -/
structure OverloadMerge where
  reopens : List (MethodSlot × Bool)
  late : Option (MethodSlot × Bool × Bool)

namespace MethodEntry

variable {Shapes : Type u} {Sig : Type v}

def empty : MethodEntry Shapes Sig :=
  {}

def take (slot entry : MethodEntry Shapes Sig) : OverloadMerge where
  reopens := entry.overloadingMethods
  late := slot.pending.bind fun _ => entry.method.map fun found =>
    (found, entry.isVoid, entry.isPrivate)

/-- A reopen's overloads come first. -/
def prepend (base : Option (List Sig)) (reopen : List Sig) : Option (List Sig) :=
  some (reopen ++ base.getD [])

/-- The first write of a slot wins. -/
def mergeInner (slot entry : MethodEntry Shapes Sig) : MethodEntry Shapes Sig :=
  let newly := entry.method.isSome && slot.method.isNone
  { slot with
    method := slot.method.or entry.method
    isVoid := slot.isVoid || (newly && entry.isVoid)
    isPrivate := slot.isPrivate || (newly && entry.isPrivate)
    tupleReturn := slot.tupleReturn.or entry.tupleReturn
    blockReturn := slot.blockReturn.or entry.blockReturn
    blockFreeReturn := slot.blockFreeReturn.or entry.blockFreeReturn
    overloads := entry.overloadingOverloads.foldl prepend (slot.overloads.or entry.overloads)
    aliased := slot.aliased.or entry.aliased
    attr := slot.attr || entry.attr }

def clearSideSlots (slot : MethodEntry Shapes Sig) (void : Bool) : MethodEntry Shapes Sig :=
  { slot with
    tupleReturn := none
    blockReturn := none
    blockFreeReturn := none
    isVoid := slot.isVoid && void }

def applyLate (slot : MethodEntry Shapes Sig) :
    MethodSlot × Bool × Bool → MethodEntry Shapes Sig
  | (original, originalVoid, isPrivate) =>
      match slot.pending with
      | none => slot
      | some reopenVoid =>
          match slot.method with
          | none => { slot with pending := none }
          | some reopen =>
              let void := originalVoid && reopenVoid
              let slot := { slot with
                pending := none, method := some (combineOverloading original reopen) }
              let slot := slot.clearSideSlots void
              { slot with
                isVoid := slot.isVoid || void
                isPrivate := slot.isPrivate || isPrivate }

def applyReopen (slot : MethodEntry Shapes Sig) : MethodSlot × Bool → MethodEntry Shapes Sig
  | (reopen, reopenVoid) =>
      match slot.method with
      | some prev =>
          let slot := { slot with method := some (combineOverloading prev reopen) }
          match slot.pending with
          | some pending => { slot with pending := some (pending && reopenVoid) }
          | none => slot.clearSideSlots reopenVoid
      | none =>
          if slot.attr || slot.aliased.isSome then
            { slot with method := some ⟨none, none, false⟩ }
          else
            { slot with method := some reopen, pending := some reopenVoid }

def apply (pending : OverloadMerge) (slot : MethodEntry Shapes Sig) : MethodEntry Shapes Sig :=
  pending.reopens.foldl applyReopen (pending.late.elim slot slot.applyLate)

/-- `merge` and `merge_qualified`, which treat methods alike. -/
def merge (slot entry : MethodEntry Shapes Sig) : MethodEntry Shapes Sig :=
  apply (take slot entry) (mergeInner slot entry)

end MethodEntry

/-! ## Declarations of a class -/

structure PlainDef (Shapes : Type u) (Sig : Type v) where
  slot : MethodSlot
  isVoid : Bool
  isPrivate : Bool
  tupleReturn : Option Shapes
  blockReturn : Option Text
  blockFreeReturn : Option Text
  overloads : List Sig

inductive Original (Shapes : Type u) (Sig : Type v) where
  | plain (defined : PlainDef Shapes Sig)
  | attr
  | aliased (old : Text)

structure Reopen (Sig : Type v) where
  slot : MethodSlot
  isVoid : Bool
  overloads : List Sig

/-- What one declaration of a class says about a method key. -/
structure Declaration (Shapes : Type u) (Sig : Type v) where
  original : Option (Original Shapes Sig)
  reopens : List (Reopen Sig)

namespace Declaration

variable {Shapes : Type u} {Sig : Type v}

/-- The entry a declaration is read into.  The singleton side has no private marks and no
block returns. -/
def entry (single : Bool) (declaration : Declaration Shapes Sig) : MethodEntry Shapes Sig :=
  let reopened : MethodEntry Shapes Sig :=
    { overloadingMethods := declaration.reopens.map fun reopen => (reopen.slot, reopen.isVoid)
      overloadingOverloads := declaration.reopens.map Reopen.overloads }
  match declaration.original with
  | none => reopened
  | some (.plain defined) =>
      { reopened with
        method := some defined.slot
        isVoid := defined.isVoid
        isPrivate := !single && defined.isPrivate
        tupleReturn := defined.tupleReturn
        blockReturn := if single then none else defined.blockReturn
        blockFreeReturn := defined.blockFreeReturn
        overloads := some defined.overloads }
  | some .attr => { reopened with attr := true }
  | some (.aliased old) => { reopened with aliased := some old }

def plain? (declaration : Declaration Shapes Sig) : Option (PlainDef Shapes Sig) :=
  match declaration.original with
  | some (.plain defined) => some defined
  | _ => none

/-- The flat reopens of a declaration. -/
def flatReopens (declaration : Declaration Shapes Sig) : List (MethodSlot × Bool) :=
  declaration.reopens.map fun reopen => (reopen.slot, reopen.isVoid)

/-- The slot before the reopens of a declaration are applied. -/
def settle (single : Bool) (declaration : Declaration Shapes Sig)
    (slot : MethodEntry Shapes Sig) : MethodEntry Shapes Sig :=
  (MethodEntry.take slot (declaration.entry single)).late.elim
    (slot.mergeInner (declaration.entry single))
    (slot.mergeInner (declaration.entry single)).applyLate

theorem merge_entry (single : Bool) (declaration : Declaration Shapes Sig)
    (slot : MethodEntry Shapes Sig) :
    slot.merge (declaration.entry single) =
      declaration.flatReopens.foldl MethodEntry.applyReopen (declaration.settle single slot) := by
  obtain ⟨_ | _ | _ | _, reopens⟩ := declaration <;> rfl

/-- An attribute or an alias: the original is known to exist and no more. -/
def IsExistence (declaration : Declaration Shapes Sig) : Prop :=
  declaration.original = some .attr ∨ ∃ old, declaration.original = some (.aliased old)

end Declaration

/-! ## The flat slot -/

/-- What an entry holds for a key without its overloads. -/
structure Flat (Shapes : Type u) where
  method : Option MethodSlot
  isVoid : Bool
  isPrivate : Bool
  tupleReturn : Option Shapes
  blockReturn : Option Text
  blockFreeReturn : Option Text
  pending : Option Bool

def MethodEntry.flat {Shapes : Type u} {Sig : Type v} (slot : MethodEntry Shapes Sig) :
    Flat Shapes where
  method := slot.method
  isVoid := slot.isVoid
  isPrivate := slot.isPrivate
  tupleReturn := slot.tupleReturn
  blockReturn := slot.blockReturn
  blockFreeReturn := slot.blockFreeReturn
  pending := slot.pending

/-- A plain original, and the reopens as one. -/
structure Parts (Shapes : Type u) (Sig : Type v) where
  original : Option (PlainDef Shapes Sig)
  reopen : Option (MethodSlot × Bool)

namespace Parts

variable {Shapes : Type u} {Sig : Type v}

/-- The flat slot of an original with its reopens. -/
def flat (single : Bool) (parts : Parts Shapes Sig) : Flat Shapes :=
  match parts.original, parts.reopen with
  | none, none => ⟨none, false, false, none, none, none, none⟩
  | none, some reopen => ⟨some reopen.1, false, false, none, none, none, some reopen.2⟩
  | some defined, none =>
      ⟨some defined.slot, defined.isVoid, !single && defined.isPrivate, defined.tupleReturn,
        if single then none else defined.blockReturn, defined.blockFreeReturn, none⟩
  | some defined, some reopen =>
      ⟨some (combineOverloading defined.slot reopen.1), defined.isVoid && reopen.2,
        !single && defined.isPrivate, none, none, none, none⟩

def reopened (parts : Parts Shapes Sig) (reopen : MethodSlot × Bool) : Parts Shapes Sig :=
  { parts with reopen := Option.merge combineReopen parts.reopen (some reopen) }

def add (parts : Parts Shapes Sig) (declaration : Declaration Shapes Sig) : Parts Shapes Sig :=
  declaration.flatReopens.foldl reopened
    { parts with original := parts.original.or declaration.plain? }

theorem foldl_reopened (parts : Parts Shapes Sig) (reopens : List (MethodSlot × Bool)) :
    reopens.foldl reopened parts =
      ⟨parts.original, (reopens.map some).foldl (Option.merge combineReopen) parts.reopen⟩ := by
  induction reopens generalizing parts with
  | nil => rfl
  | cons reopen reopens ih =>
      rw [List.foldl_cons, ih]
      rfl

theorem add_eq (parts : Parts Shapes Sig) (declaration : Declaration Shapes Sig) :
    parts.add declaration = ⟨parts.original.or declaration.plain?,
      (declaration.flatReopens.map some).foldl (Option.merge combineReopen) parts.reopen⟩ :=
  foldl_reopened _ _

/-- Two declarations may change places if one of them supplies no original. -/
theorem add_right_comm (parts : Parts Shapes Sig) {a b : Declaration Shapes Sig}
    (once : a.plain? = none ∨ b.plain? = none) :
    (parts.add a).add b = (parts.add b).add a := by
  simp only [add_eq, Parts.mk.injEq, ← List.foldl_append]
  constructor
  · rcases once with absent | absent <;> simp [absent]
  · exact List.perm_append_comm.foldl_op_eq

end Parts

/-- An entry that holds an original and its reopens, and no attribute or alias. -/
structure Composed {Shapes : Type u} {Sig : Type v} (single : Bool)
    (slot : MethodEntry Shapes Sig) (parts : Parts Shapes Sig) : Prop where
  flat : slot.flat = parts.flat single
  attr : slot.attr = false
  aliased : slot.aliased = none

namespace Composed

variable {Shapes : Type u} {Sig : Type v} {single : Bool} {slot : MethodEntry Shapes Sig}
  {parts : Parts Shapes Sig}

theorem applyReopen (composed : Composed single slot parts) (reopen : MethodSlot × Bool) :
    Composed single (slot.applyReopen reopen) (parts.reopened reopen) := by
  obtain ⟨flat, attr, aliased⟩ := composed
  obtain ⟨original, reopens⟩ := parts
  rcases original with _ | defined <;> rcases reopens with _ | first <;>
    simp only [MethodEntry.flat, Parts.flat, Flat.mk.injEq] at flat <;>
    constructor <;>
    simp [MethodEntry.applyReopen, MethodEntry.clearSideSlots, MethodEntry.flat, Parts.flat,
      Parts.reopened, combineReopen, flat, attr, aliased, combineOverloading_assoc, Bool.and_assoc]

theorem applyReopens (composed : Composed single slot parts)
    (reopens : List (MethodSlot × Bool)) :
    Composed single (reopens.foldl MethodEntry.applyReopen slot)
      (reopens.foldl Parts.reopened parts) := by
  induction reopens generalizing slot parts with
  | nil => exact composed
  | cons reopen reopens ih => exact ih (composed.applyReopen reopen)

theorem merge (composed : Composed single slot parts) {declaration : Declaration Shapes Sig}
    (plain : ¬ declaration.IsExistence)
    (once : parts.original = none ∨ declaration.original = none) :
    Composed single (slot.merge (declaration.entry single)) (parts.add declaration) := by
  rw [Declaration.merge_entry]
  apply applyReopens
  obtain ⟨original, reopens⟩ := declaration
  obtain ⟨flat, attr, aliased⟩ := composed
  obtain ⟨defined, before⟩ := parts
  rcases original with _ | defined' | _ | old
  · rcases pending : slot.pending with _ | void <;> constructor
    all_goals simp [Declaration.settle, MethodEntry.take, MethodEntry.mergeInner,
      Declaration.entry, Declaration.plain?, MethodEntry.flat, pending, attr, aliased, ← flat]
  · obtain rfl : defined = none := by simpa using once
    rcases before with _ | reopen <;>
      simp only [MethodEntry.flat, Parts.flat, Flat.mk.injEq] at flat <;>
      constructor <;>
      simp [Declaration.settle, MethodEntry.take, MethodEntry.mergeInner, MethodEntry.applyLate,
        MethodEntry.clearSideSlots, Declaration.entry, Declaration.plain?, MethodEntry.flat,
        Parts.flat, flat, attr, aliased]
  · exact absurd (.inl rfl) plain
  · exact absurd (.inr ⟨old, rfl⟩) plain

end Composed

/-! ## Runs over the declarations of a class -/

section Runs

variable {Shapes : Type u} {Sig : Type v} {single : Bool}

/-- What the declarations of a class leave for a key, merged in the order of the list. -/
def mergeAll (single : Bool) (declarations : List (Declaration Shapes Sig)) :
    MethodEntry Shapes Sig :=
  declarations.foldl (fun slot declaration => slot.merge (declaration.entry single)) .empty

def Declaration.Compatible (a b : Declaration Shapes Sig) : Prop :=
  a.original = none ∨ b.original = none

instance : Std.Symm (Declaration.Compatible : Declaration Shapes Sig → _ → Prop) where
  symm _ _ either := either.symm

/-- At most one of the declarations supplies an original. -/
def OneOriginal (declarations : List (Declaration Shapes Sig)) : Prop :=
  declarations.Pairwise Declaration.Compatible

theorem OneOriginal.perm {declarations others : List (Declaration Shapes Sig)}
    (once : OneOriginal declarations) (same : others.Perm declarations) : OneOriginal others :=
  (same.pairwise_iff fun either => either.symm).mpr once

theorem Composed.foldl_merge {declarations : List (Declaration Shapes Sig)}
    {slot : MethodEntry Shapes Sig} {parts : Parts Shapes Sig}
    (composed : Composed single slot parts) (plain : ∀ d ∈ declarations, ¬ d.IsExistence)
    (once : OneOriginal declarations)
    (first : parts.original = none ∨ ∀ d ∈ declarations, d.original = none) :
    Composed single
      (declarations.foldl (fun slot declaration => slot.merge (declaration.entry single)) slot)
      (declarations.foldl Parts.add parts) := by
  induction declarations generalizing slot parts with
  | nil => exact composed
  | cons d declarations ih =>
      obtain ⟨onceHead, onceRest⟩ := List.pairwise_cons.mp once
      have headFirst : parts.original = none ∨ d.original = none :=
        first.imp_right fun none => none d List.mem_cons_self
      apply ih (composed.merge (plain d List.mem_cons_self) headFirst)
        (fun other mem => plain other (List.mem_cons_of_mem _ mem)) onceRest
      rw [Parts.add_eq]
      rcases first with absent | none
      · rcases none? : d.original with _ | original
        · simp [absent, Declaration.plain?, none?]
        · exact .inr fun other mem => (onceHead other mem).resolve_left (by simp [none?])
      · exact .inr fun other mem => none other (List.mem_cons_of_mem _ mem)

theorem Declaration.plain_of_original {declaration : Declaration Shapes Sig}
    (absent : declaration.original = none) : declaration.plain? = none := by
  rw [Declaration.plain?, absent]

theorem foldl_add_perm {declarations others : List (Declaration Shapes Sig)}
    (same : others.Perm declarations) (once : OneOriginal declarations)
    (parts : Parts Shapes Sig) :
    others.foldl Parts.add parts = declarations.foldl Parts.add parts := by
  apply same.foldl_eq'
  intro a memA b memB z
  by_cases equal : a = b
  · rw [equal]
  · apply Parts.add_right_comm
    have either : a.Compatible b := List.Pairwise.forall (once.perm same) memA memB equal
    exact either.imp Declaration.plain_of_original Declaration.plain_of_original

/-- Plain originals: the flat slot is the same in every order. -/
theorem flat_mergeAll_perm {declarations others : List (Declaration Shapes Sig)}
    (same : others.Perm declarations) (once : OneOriginal declarations)
    (plain : ∀ d ∈ declarations, ¬ d.IsExistence) :
    (mergeAll single others).flat = (mergeAll single declarations).flat := by
  have start : Composed single (MethodEntry.empty : MethodEntry Shapes Sig) ⟨none, none⟩ :=
    ⟨rfl, rfl, rfl⟩
  have ran := start.foldl_merge plain once (.inl rfl)
  have ran' := start.foldl_merge (fun d mem => plain d (same.subset mem)) (once.perm same) (.inl rfl)
  rw [foldl_add_perm same once] at ran'
  exact ran'.flat.trans ran.flat.symm

/-! ## A key that nobody else declares -/

/-- A declaration that says nothing about the key. -/
def Declaration.IsBlank (declaration : Declaration Shapes Sig) : Prop :=
  declaration.original = none ∧ declaration.reopens = []

theorem Declaration.IsBlank.merge {declaration : Declaration Shapes Sig}
    (blank : declaration.IsBlank) (slot : MethodEntry Shapes Sig) :
    slot.merge (declaration.entry single) = slot := by
  obtain ⟨original, reopens⟩ := declaration
  obtain ⟨rfl, rfl⟩ := blank
  rcases slot with ⟨_, _, _, _, _, _, _, _, _, _ | void, _, _⟩ <;>
    simp [MethodEntry.merge, MethodEntry.take, MethodEntry.apply, MethodEntry.mergeInner,
      Declaration.entry]

theorem foldl_merge_blank {declarations : List (Declaration Shapes Sig)}
    (blank : ∀ d ∈ declarations, d.IsBlank) (slot : MethodEntry Shapes Sig) :
    declarations.foldl (fun slot declaration => slot.merge (declaration.entry single)) slot =
      slot := by
  induction declarations with
  | nil => rfl
  | cons d declarations ih =>
      rw [List.foldl_cons, (blank d List.mem_cons_self).merge]
      exact ih fun other mem => blank other (List.mem_cons_of_mem _ mem)

/-- In every order the only declaration of the key decides. -/
theorem mergeAll_alone {declarations others : List (Declaration Shapes Sig)}
    {declaration : Declaration Shapes Sig} (same : declarations.Perm (declaration :: others))
    (blank : ∀ d ∈ others, d.IsBlank) :
    mergeAll single declarations = MethodEntry.empty.merge (declaration.entry single) := by
  obtain ⟨front, back, rfl⟩ := List.append_of_mem (same.symm.subset List.mem_cons_self)
  have rest : (front ++ back).Perm others :=
    (List.perm_middle.symm.trans same).cons_inv
  rw [mergeAll, List.foldl_append, List.foldl_cons,
    foldl_merge_blank fun d mem => blank d (rest.subset (List.mem_append_left _ mem)),
    foldl_merge_blank fun d mem => blank d (rest.subset (List.mem_append_right _ mem))]

/-! ## An original that is known to exist only -/

/-- The slot is not pending and no reopen can make it so. -/
def MethodEntry.Anchored (slot : MethodEntry Shapes Sig) : Prop :=
  slot.pending = none ∧
    (slot.attr = true ∨ slot.aliased.isSome = true ∨ slot.method.isSome = true)

theorem MethodEntry.Anchored.applyReopen {slot : MethodEntry Shapes Sig} (anchored : slot.Anchored)
    (reopen : MethodSlot × Bool) : (slot.applyReopen reopen).Anchored := by
  obtain ⟨pending, anchor⟩ := anchored
  rcases method : slot.method with _ | prev
  · have other : slot.attr = true ∨ slot.aliased.isSome = true := by simpa [method] using anchor
    simp [MethodEntry.applyReopen, method, other, MethodEntry.Anchored, pending]
  · simp [MethodEntry.applyReopen, method, pending, MethodEntry.Anchored,
      MethodEntry.clearSideSlots]

theorem MethodEntry.Anchored.merge {slot : MethodEntry Shapes Sig} (anchored : slot.Anchored)
    (declaration : Declaration Shapes Sig) : (slot.merge (declaration.entry single)).Anchored := by
  rw [Declaration.merge_entry]
  have settled : (declaration.settle single slot).Anchored := by
    obtain ⟨pending, anchor⟩ := anchored
    simp only [MethodEntry.Anchored, Declaration.settle, MethodEntry.take, MethodEntry.mergeInner,
      pending, Option.bind_none, Option.elim_none, Option.isSome_or, Bool.or_eq_true]
    tauto
  exact List.foldlRecOn declaration.flatReopens _ settled
    fun _ anchored reopen _ => anchored.applyReopen reopen

/-- The slot waits for its original. -/
def MethodEntry.Waits (slot : MethodEntry Shapes Sig) : Prop :=
  slot.pending.isSome = true ∧ slot.method.isSome = true

theorem MethodEntry.Waits.applyReopen {slot : MethodEntry Shapes Sig} (waits : slot.Waits)
    (reopen : MethodSlot × Bool) : (slot.applyReopen reopen).Waits := by
  obtain ⟨pending, method⟩ := waits
  obtain ⟨void, pending⟩ := Option.isSome_iff_exists.mp pending
  obtain ⟨prev, method⟩ := Option.isSome_iff_exists.mp method
  simp [MethodEntry.applyReopen, method, pending, MethodEntry.Waits]

/-- Only a plain definition ends the wait. -/
theorem MethodEntry.Waits.merge {slot : MethodEntry Shapes Sig} (waits : slot.Waits)
    {declaration : Declaration Shapes Sig} (absent : declaration.plain? = none) :
    (slot.merge (declaration.entry single)).Waits := by
  rw [Declaration.merge_entry]
  have settled : (declaration.settle single slot).Waits := by
    obtain ⟨pending, method⟩ := waits
    obtain ⟨void, pending⟩ := Option.isSome_iff_exists.mp pending
    obtain ⟨prev, method⟩ := Option.isSome_iff_exists.mp method
    obtain ⟨_ | _ | _ | _, reopens⟩ := declaration
    · simp [MethodEntry.Waits, Declaration.settle, MethodEntry.take, MethodEntry.mergeInner,
        Declaration.entry, pending, method]
    · simp [Declaration.plain?] at absent
    · simp [MethodEntry.Waits, Declaration.settle, MethodEntry.take, MethodEntry.mergeInner,
        Declaration.entry, pending, method]
    · simp [MethodEntry.Waits, Declaration.settle, MethodEntry.take, MethodEntry.mergeInner,
        Declaration.entry, pending, method]
  exact List.foldlRecOn declaration.flatReopens _ settled
    fun _ waits reopen _ => waits.applyReopen reopen

/-- A reopen that comes first waits. -/
theorem waits_first {declaration : Declaration Shapes Sig} (absent : declaration.original = none)
    (reopens : declaration.reopens ≠ []) :
    (MethodEntry.empty.merge (declaration.entry single)).Waits := by
  obtain ⟨original, _ | ⟨reopen, rest⟩⟩ := declaration
  · exact absurd rfl reopens
  · obtain rfl := absent
    rw [Declaration.merge_entry, Declaration.flatReopens, List.map_cons, List.foldl_cons]
    exact List.foldlRecOn _ _ ⟨rfl, rfl⟩ fun _ waits reopen _ => waits.applyReopen reopen

/-- An attribute or alias that comes first never waits. -/
theorem anchored_first {declaration : Declaration Shapes Sig} (existence : declaration.IsExistence) :
    (MethodEntry.empty.merge (declaration.entry single)).Anchored := by
  obtain ⟨original, reopens⟩ := declaration
  rw [Declaration.merge_entry]
  apply List.foldlRecOn _ _ _ fun _ anchored reopen _ => anchored.applyReopen reopen
  obtain rfl | ⟨old, rfl⟩ := existence
  · exact ⟨rfl, .inl rfl⟩
  · exact ⟨rfl, .inr (.inl rfl)⟩

/-- With an attribute or alias, a separate reopen makes the pending mark depend on the order. -/
theorem flat_ne_of_existence {first second : Declaration Shapes Sig}
    {others : List (Declaration Shapes Sig)} (existence : first.IsExistence)
    (reopens : second.reopens ≠ []) (once : OneOriginal (first :: second :: others)) :
    (mergeAll single (first :: second :: others)).flat ≠
      (mergeAll single (second :: first :: others)).flat := by
  obtain ⟨onceHead, -⟩ := List.pairwise_cons.mp once
  have supplies : first.original ≠ none := by
    obtain supplied | ⟨old, supplied⟩ := existence <;> simp [supplied]
  have absent (other : Declaration Shapes Sig) (mem : other ∈ second :: others) :
      other.original = none := (onceHead other mem).resolve_left supplies
  have anchored : (mergeAll single (first :: second :: others)).Anchored :=
    List.foldlRecOn (second :: others) _ (anchored_first existence)
      fun _ anchored d _ => anchored.merge d
  have waits : (mergeAll single (second :: first :: others)).Waits := by
    apply List.foldlRecOn (first :: others) _ (waits_first (absent second List.mem_cons_self) reopens)
    intro slot waits d mem
    apply waits.merge
    rcases List.mem_cons.mp mem with rfl | mem
    · obtain supplied | ⟨old, supplied⟩ := existence <;> simp [Declaration.plain?, supplied]
    · exact Declaration.plain_of_original (absent d (List.mem_cons_of_mem _ mem))
  intro same
  have pending := congrArg Flat.pending same
  have pendingNone : (mergeAll single (first :: second :: others)).pending = none := anchored.1
  have pendingSome := waits.1
  rw [show (mergeAll single (second :: first :: others)).pending = none from
    pending.symm.trans pendingNone] at pendingSome
  simp at pendingSome

/-! ## The retained overloads -/

def MethodEntry.retained (slot : MethodEntry Shapes Sig) : Multiset Sig :=
  ↑(slot.overloads.getD [])

def Declaration.reopenOverloads (declaration : Declaration Shapes Sig) : Multiset Sig :=
  ↑(declaration.reopens.flatMap Reopen.overloads)

def Declaration.originalOverloads (declaration : Declaration Shapes Sig) : Multiset Sig :=
  ↑(declaration.plain?.elim [] PlainDef.overloads)

/-- The overloads a declaration supplies, of the original and of reopens. -/
def Declaration.overloads (declaration : Declaration Shapes Sig) : Multiset Sig :=
  declaration.originalOverloads + declaration.reopenOverloads

theorem overloads_applyReopen (slot : MethodEntry Shapes Sig) (reopen : MethodSlot × Bool) :
    (slot.applyReopen reopen).overloads = slot.overloads := by
  rcases method : slot.method with _ | prev
  · simp only [MethodEntry.applyReopen, method]
    split <;> rfl
  · rcases pending : slot.pending with _ | void <;>
      simp [MethodEntry.applyReopen, method, pending, MethodEntry.clearSideSlots]

theorem overloads_applyLate (slot : MethodEntry Shapes Sig) (late : MethodSlot × Bool × Bool) :
    (slot.applyLate late).overloads = slot.overloads := by
  rw [MethodEntry.applyLate]
  split
  · rfl
  · split <;> rfl

/-- The flat slots are combined apart from the overloads. -/
theorem overloads_merge (slot entry : MethodEntry Shapes Sig) :
    (slot.merge entry).overloads = (slot.mergeInner entry).overloads := by
  have late : ((MethodEntry.take slot entry).late.elim (slot.mergeInner entry)
      (slot.mergeInner entry).applyLate).overloads = (slot.mergeInner entry).overloads := by
    rcases (MethodEntry.take slot entry).late with _ | late
    · rfl
    · exact overloads_applyLate _ late
  refine List.foldlRecOn (motive := fun merged : MethodEntry Shapes Sig =>
    merged.overloads = (slot.mergeInner entry).overloads) _ _ late ?_
  exact fun _ same reopen _ => (overloads_applyReopen _ reopen).trans same

theorem getD_foldl_prepend (reopens : List (List Sig)) (base : Option (List Sig)) :
    (↑((reopens.foldl MethodEntry.prepend base).getD []) : Multiset Sig) =
      ↑(base.getD []) + ↑reopens.flatten := by
  induction reopens generalizing base with
  | nil => simp
  | cons reopen reopens ih =>
      rw [List.foldl_cons, ih, List.flatten_cons, ← Multiset.coe_add, MethodEntry.prepend,
        Option.getD_some, ← Multiset.coe_add, add_comm (reopen : Multiset Sig), add_assoc]

theorem isSome_foldl_prepend (reopens : List (List Sig)) (base : Option (List Sig)) :
    (reopens.foldl MethodEntry.prepend base).isSome = (base.isSome || !reopens.isEmpty) := by
  induction reopens generalizing base with
  | nil => simp
  | cons reopen reopens ih =>
      rw [List.foldl_cons, ih]
      simp [MethodEntry.prepend]

/-- An original that comes after other overloads is dropped. -/
theorem retained_merge (slot : MethodEntry Shapes Sig) (declaration : Declaration Shapes Sig) :
    (slot.merge (declaration.entry single)).retained =
      slot.retained + (if slot.overloads.isSome then 0 else declaration.originalOverloads) +
        declaration.reopenOverloads := by
  rw [MethodEntry.retained, overloads_merge, MethodEntry.mergeInner, getD_foldl_prepend,
    Declaration.reopenOverloads, List.flatMap]
  have base : (↑((slot.overloads.or (declaration.entry single).overloads).getD []) : Multiset Sig) =
      slot.retained + if slot.overloads.isSome then 0 else declaration.originalOverloads := by
    rw [MethodEntry.retained]
    rcases overloads : slot.overloads with _ | base
    · obtain ⟨_ | _ | _ | _, reopens⟩ := declaration <;>
        simp [Declaration.entry, Declaration.originalOverloads, Declaration.plain?]
    · simp
  rw [base]
  obtain ⟨_ | _ | _ | _, reopens⟩ := declaration <;> rfl

theorem isSome_overloads_merge (slot : MethodEntry Shapes Sig)
    {declaration : Declaration Shapes Sig} (reopens : declaration.reopens ≠ []) :
    (slot.merge (declaration.entry single)).overloads.isSome = true := by
  rw [overloads_merge, MethodEntry.mergeInner, isSome_foldl_prepend]
  obtain ⟨original, _ | ⟨reopen, rest⟩⟩ := declaration
  · exact absurd rfl reopens
  · rcases original with _ | _ | _ | _ <;> simp [Declaration.entry]

theorem retained_foldl_le (declarations : List (Declaration Shapes Sig))
    (slot : MethodEntry Shapes Sig) :
    (declarations.foldl (fun slot declaration => slot.merge (declaration.entry single)) slot).retained ≤
      slot.retained + (declarations.map Declaration.overloads).sum := by
  induction declarations generalizing slot with
  | nil => simp
  | cons d declarations ih =>
      rw [List.foldl_cons, List.map_cons, List.sum_cons]
      apply (ih _).trans
      rw [retained_merge, Declaration.overloads, ← add_assoc, ← add_assoc]
      gcongr
      split
      · exact Multiset.zero_le _
      · exact le_rfl

/-- Without a plain original that has overloads, every overload is retained. -/
theorem retained_foldl {declarations : List (Declaration Shapes Sig)}
    (none : ∀ d ∈ declarations, d.originalOverloads = 0) (slot : MethodEntry Shapes Sig) :
    (declarations.foldl (fun slot declaration => slot.merge (declaration.entry single)) slot).retained =
      slot.retained + (declarations.map Declaration.overloads).sum := by
  induction declarations generalizing slot with
  | nil => simp
  | cons d declarations ih =>
      rw [List.foldl_cons, List.map_cons, List.sum_cons,
        ih fun other mem => none other (List.mem_cons_of_mem _ mem), retained_merge,
        Declaration.overloads, none d List.mem_cons_self]
      simp [add_assoc]

/-- An original that comes after a reopen loses its overloads. -/
theorem not_retained_late {first second : Declaration Shapes Sig}
    {others : List (Declaration Shapes Sig)} (supplies : second.originalOverloads ≠ 0)
    (reopens : first.reopens ≠ []) :
    ¬ ((first :: second :: others).map Declaration.overloads).sum ≤
      (mergeAll single (first :: second :: others)).retained := by
  intro contains
  have bound : (mergeAll single (first :: second :: others)).retained ≤ _ :=
    retained_foldl_le others
      ((MethodEntry.empty.merge (first.entry single)).merge (second.entry single))
  rw [retained_merge, if_pos (isSome_overloads_merge _ reopens), retained_merge] at bound
  have cards := Multiset.card_le_card (contains.trans bound)
  have lost := Multiset.card_pos.mpr supplies
  simp only [List.map_cons, List.sum_cons, Multiset.card_add, Declaration.overloads,
    show (MethodEntry.empty : MethodEntry Shapes Sig).retained = 0 from rfl,
    show (MethodEntry.empty : MethodEntry Shapes Sig).overloads = none from rfl,
    Multiset.card_zero, Option.isSome_none, Bool.false_eq_true, if_false] at cards
  omega

/-! ## When the order does not matter -/

/-- Every order of the declarations leaves the same slot and retains all their overloads. -/
def OrderFree (single : Bool) (declarations : List (Declaration Shapes Sig)) : Prop :=
  ∀ others, others.Perm declarations →
    (mergeAll single others).flat = (mergeAll single declarations).flat ∧
      (mergeAll single others).retained = (mergeAll single declarations).retained ∧
        (declarations.map Declaration.overloads).sum ≤ (mergeAll single others).retained

/-- An attribute, an alias, or a plain definition with overloads. -/
def Declaration.MustComeFirst (declaration : Declaration Shapes Sig) : Prop :=
  declaration.IsExistence ∨ declaration.originalOverloads ≠ 0

theorem Declaration.MustComeFirst.original_ne_none {declaration : Declaration Shapes Sig}
    (first : declaration.MustComeFirst) : declaration.original ≠ none := by
  intro absent
  obtain (supplied | ⟨old, supplied⟩) | supplies := first
  · simp [supplied] at absent
  · simp [supplied] at absent
  · simp [Declaration.originalOverloads, Declaration.plain_of_original absent] at supplies

theorem Declaration.IsBlank.overloads {declaration : Declaration Shapes Sig}
    (blank : declaration.IsBlank) : declaration.overloads = 0 := by
  simp [Declaration.overloads, Declaration.originalOverloads, Declaration.reopenOverloads,
    Declaration.plain_of_original blank.1, blank.2]

theorem orderFree_iff {declarations : List (Declaration Shapes Sig)}
    (once : OneOriginal declarations) :
    OrderFree single declarations ↔
      ∀ declaration others, (declaration :: others).Perm declarations →
        declaration.MustComeFirst → ∀ other ∈ others, other.reopens = [] := by
  constructor
  · rintro free declaration others same mustComeFirst other mem
    by_contra reopens
    obtain ⟨front, back, rfl⟩ := List.append_of_mem mem
    have swapped : (declaration :: other :: (front ++ back)).Perm declarations :=
      (List.perm_middle.symm.cons declaration).trans same
    obtain ⟨flat, -, -⟩ := free _ swapped
    obtain ⟨flat', -, contains⟩ := free _ ((List.Perm.swap _ _ _).trans swapped)
    rcases mustComeFirst with existence | supplies
    · exact flat_ne_of_existence existence reopens (once.perm swapped) (flat.trans flat'.symm)
    · apply not_retained_late supplies reopens
      rwa [((List.Perm.swap _ _ _).trans swapped |>.map Declaration.overloads).sum_eq]
  · intro alone others same
    by_cases contended : ∃ d ∈ declarations, d.MustComeFirst
    · obtain ⟨d, mem, mustComeFirst⟩ := contended
      obtain ⟨front, back, rfl⟩ := List.append_of_mem mem
      have blank (other : Declaration Shapes Sig) (mem : other ∈ front ++ back) : other.IsBlank := by
        have compatible := (List.pairwise_cons.mp (once.perm List.perm_middle.symm)).1 other mem
        constructor
        · exact compatible.resolve_left mustComeFirst.original_ne_none
        · exact alone d _ List.perm_middle.symm mustComeFirst other mem
      rw [mergeAll_alone (same.trans List.perm_middle) blank, mergeAll_alone List.perm_middle blank]
      refine ⟨rfl, rfl, ?_⟩
      have rest : ((front ++ back).map Declaration.overloads).sum = 0 := by
        apply List.sum_eq_zero
        intro overloads mem
        obtain ⟨other, otherMem, rfl⟩ := List.mem_map.mp mem
        exact (blank other otherMem).overloads
      rw [(List.perm_middle.map Declaration.overloads).sum_eq, List.map_cons, List.sum_cons, rest,
        retained_merge, add_zero, Declaration.overloads]
      exact add_le_add (le_add_of_nonneg_left (Multiset.zero_le _)) le_rfl
    · simp only [not_exists, not_and, Declaration.MustComeFirst, not_or, not_not] at contended
      have plain : ∀ d ∈ declarations, ¬ d.IsExistence := fun d mem => (contended d mem).1
      have retained : (mergeAll single declarations).retained = _ :=
        retained_foldl (fun d mem => (contended d mem).2) .empty
      have retained' : (mergeAll single others).retained = _ :=
        retained_foldl (fun d mem => (contended d (same.subset mem)).2) .empty
      rw [(same.map Declaration.overloads).sum_eq] at retained'
      refine ⟨flat_mergeAll_perm same once plain, retained'.trans retained.symm, ?_⟩
      rw [retained']
      exact le_add_of_nonneg_left (Multiset.zero_le _)

/-! ## A reopen before its original -/

def plus : Declaration Unit Text where
  original := some (.plain ⟨⟨some "Integer".toList, some (1, some 1), false⟩, false, false, none,
    none, none, ["Integer".toList]⟩)
  reopens := []

def plusReopened : Declaration Unit Text where
  original := none
  reopens := [⟨⟨some "BigDecimal".toList, some (1, some 1), false⟩, false, ["BigDecimal".toList]⟩]

theorem oneOriginal_plus : OneOriginal [plus, plusReopened] :=
  List.pairwise_cons.mpr ⟨fun _ mem => .inr (List.mem_singleton.mp mem ▸ rfl),
    List.pairwise_singleton _ _⟩

theorem orderFree_plus : OrderFree false [plus, plusReopened] ↔
    ∀ declaration others, (declaration :: others).Perm [plus, plusReopened] →
      declaration.MustComeFirst → ∀ other ∈ others, other.reopens = [] :=
  orderFree_iff oneOriginal_plus

/-- The original loses its overloads if a reopen is merged first. -/
theorem not_orderFree_plus : ¬ ∀ (single : Bool) (declarations : List (Declaration Unit Text)),
    OneOriginal declarations → OrderFree single declarations := by
  intro claimed
  obtain ⟨-, same, -⟩ :=
    claimed false _ oneOriginal_plus [plusReopened, plus] (List.Perm.swap _ _ _)
  have dropped : (mergeAll false [plusReopened, plus]).retained = {"BigDecimal".toList} := by decide
  have kept : (mergeAll false [plus, plusReopened]).retained =
      {"BigDecimal".toList, "Integer".toList} := by decide
  rw [dropped, kept] at same
  exact absurd (congrArg Multiset.card same) (by decide)

end Runs

end Rigor.Index
