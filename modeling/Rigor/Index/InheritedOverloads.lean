import Rigor.Index.Overloading
import Rigor.Library.Breadth
import Rigor.Library.Cells

/-!
# Reopens of inherited originals

After the project's signatures are loaded, a reopen that is still pending continues an
inherited original.  The pending keys come out of a hash map, so they are folded in any
order.  The results here say when the order makes no difference.
-/

namespace Rigor.Index

open Rigor.Library

universe u v

/-- What an entry of the qualified table says about its ancestors: the references as
written, each with its lexical context. -/
structure QualifiedEntry where
  isModule : Bool
  includesWritten : List (Text × List Text)
  prependsWritten : List (Text × List Text)
  superclassWritten : Option (Text × List Text)

/-- A class of the qualified table and a method key. -/
abbrev PendingKey :=
  Text × MethodKey

/-- The part of the builder that folds pending reopens: the qualified table, the known type
names, and the methods of the qualified and of the short-name entries. -/
structure OverloadBuilder (Shapes : Type u) (Sig : Type v) where
  qualified : List (Text × QualifiedEntry)
  knownTypeNames : List Text
  members : PendingKey → MethodEntry Shapes Sig
  classes : List Text
  shortMembers : PendingKey → MethodEntry Shapes Sig

/-- The last segment of a qualified name. -/
def leafOf (qual : Text) : Text :=
  (qual.tails.reverse.findSome? fun tail =>
    if "::".toList.isPrefixOf tail then some (tail.drop 2) else none).getD qual

namespace MethodEntry

variable {Shapes : Type u} {Sig : Type v}

/-- What an ancestor offers to a reopen below it; a pending entry offers nothing. -/
def offer (slot : MethodEntry Shapes Sig) : Option MethodSlot :=
  if slot.pending.isSome then none
  else slot.method.or (if slot.attr || slot.aliased.isSome then some ⟨none, none, false⟩ else none)

/-- Folds a pending entry into the original that was found.  The mark says that none was. -/
def foldInto (slot : MethodEntry Shapes Sig) (found : Option MethodSlot) :
    MethodEntry Shapes Sig × Bool :=
  let slot := { slot with pending := none }
  match slot.method with
  | none => (slot, false)
  | some reopen =>
      match found with
      | some original => ({ slot with method := some (combineOverloading original reopen) }, false)
      | none => (slot, true)

end MethodEntry

namespace OverloadBuilder

variable {Shapes : Type u} {Sig : Type v} (builder : OverloadBuilder Shapes Sig)

def entry? (qual : Text) : Option QualifiedEntry :=
  builder.qualified.lookup qual

def resolveTypeNameRbs (written : Text × List Text) : Option Text :=
  let known (name : Text) : Option Text := builder.knownTypeNames.find? (· = name)
  if "::".toList.isPrefixOf written.1 then known (written.1.drop 2)
  else (written.2.reverse.findSome? fun scope => known (scope ++ "::".toList ++ written.1)).or
    (known written.1)

/-- The implicit superclass, if it is loaded. -/
def object? : Option Text :=
  (builder.entry? "Object".toList).map fun _ => "Object".toList

def healthLinks (qual : Text) : List (Option Text) :=
  match builder.entry? qual with
  | none => []
  | some entry =>
      (entry.includesWritten ++ entry.prependsWritten).map builder.resolveTypeNameRbs ++
        match entry.superclassWritten with
        | some written => [builder.resolveTypeNameRbs written]
        | none =>
            if !entry.isModule && qual ≠ "BasicObject".toList then [builder.object?] else []

def superclassKey (qual : Text) (entry : QualifiedEntry) : Option Text :=
  if entry.isModule || qual = "BasicObject".toList then none
  else
    match entry.superclassWritten with
    | some written => builder.resolveTypeNameRbs written
    | none => builder.object?

/-- The ancestors that a walk goes on with. -/
def links (qual : Text) : List Text :=
  (builder.healthLinks qual).reduceOption

/-- The superclass, as the only link of a walk along the superclasses. -/
def superLinks (qual : Text) : List Text :=
  ((builder.entry? qual).bind (builder.superclassKey qual)).toList

/-- Enough for a walk from some classes. -/
def fuel (links : Text → List Text) (queue : List Text) : Nat :=
  Breadth.cost links (builder.qualified.map Prod.fst) [] queue + 1

/-- What a loaded ancestor offers on one side. -/
def offerAt (name : Text) (single : Bool) (qual : Text) : Option MethodSlot :=
  (builder.entry? qual).bind fun _ => (builder.members (qual, name, single)).offer

def inheritedInstanceSlot (qual name : Text) (includeSelf : Bool) : Option MethodSlot :=
  let seen := if includeSelf then [] else [qual]
  let queue := if includeSelf then [qual] else builder.links qual
  Breadth.search builder.links (builder.offerAt name false)
    (builder.fuel builder.links queue) seen queue

/-- A singleton `new` is derived from `initialize`: the instance return with any arity. -/
def derivedNew (qual : Text) (own : Option MethodSlot) : MethodSlot :=
  match own with
  | some ⟨some ret, _, isInstance⟩ =>
      if ret = qual ∨ ret = leafOf qual then ⟨some ret, none, isInstance⟩ else ⟨none, none, false⟩
  | _ => ⟨none, none, false⟩

/-- The instance side of the class object. -/
def metaOf (qual : Text) : Text :=
  if (builder.entry? qual).any fun entry => entry.isModule then "Module".toList
  else "Class".toList

def inheritedSingletonSlot (qual name : Text) : Option MethodSlot :=
  if name = "new".toList then
    some (derivedNew qual
      ((builder.entry? qual).bind fun _ => (builder.members (qual, name, true)).method))
  else
    let queue := builder.superLinks qual
    (Breadth.search builder.superLinks (builder.offerAt name true)
      (builder.fuel builder.superLinks queue) [] queue).or
      ((builder.entry? (builder.metaOf qual)).bind fun _ =>
        builder.inheritedInstanceSlot (builder.metaOf qual) name true)

def inheritedSlot : PendingKey → Option MethodSlot
  | (qual, name, single) =>
      if single then builder.inheritedSingletonSlot qual name
      else builder.inheritedInstanceSlot qual name false

/-- One round of `resolve_inherited_overloads`, with the unresolved keys so far. -/
def resolveOne : OverloadBuilder Shapes Sig × List PendingKey → PendingKey →
    OverloadBuilder Shapes Sig × List PendingKey
  | (builder, unresolved), key =>
      let found := builder.inheritedSlot key
      match builder.entry? key.1 with
      | none => (builder, unresolved)
      | some _ =>
          let folded := (builder.members key).foldInto found
          ({ builder with members := Function.update builder.members key folded.1 },
            if folded.2 then key :: unresolved else unresolved)

/-- A short slot takes the qualified answer, or keeps existence only. -/
def foldShort : OverloadBuilder Shapes Sig :=
  { builder with
    shortMembers := fun (short, key) =>
      let slot := builder.shortMembers (short, key)
      if builder.classes.contains short && slot.pending.isSome then
        let resolved := (builder.entry? short).bind fun _ => (builder.members (short, key)).method
        { slot with method := some (resolved.getD ⟨none, none, false⟩), pending := none }
      else slot }

/-- The builder with all pending keys folded, and the keys without an original. -/
def resolveInheritedOverloads (order : List PendingKey) :
    OverloadBuilder Shapes Sig × List PendingKey :=
  let resolved := order.foldl resolveOne (builder, [])
  (resolved.1.foldShort, resolved.2)

/-- The sides of classes whose definition does not build. -/
def dupUnbuildable (projectOverloads unresolved : List PendingKey) (dup : List (Text × Bool)) :
    List (Text × Bool) :=
  let dup := dup ++
    (projectOverloads.filter (unresolved.contains ·)).map fun (qual, _, single) => (qual, single)
  dup ++ (dup.filter fun failed => !failed.2).map fun failed => (failed.1, true)

/-! ## The walks as paths -/

/-- The classes that the walk of an instance-side key visits. -/
def instancePath (qual : Text) (includeSelf : Bool) : List Text :=
  let seen := if includeSelf then [] else [qual]
  let queue := if includeSelf then [qual] else builder.links qual
  Breadth.visits builder.links (builder.fuel builder.links queue) seen queue

def superPath (qual : Text) : List Text :=
  let queue := builder.superLinks qual
  Breadth.visits builder.superLinks (builder.fuel builder.superLinks queue) [] queue

/-- The entries that a key may be folded into, the nearest first. -/
def path : PendingKey → List PendingKey
  | (qual, name, single) =>
      if single then
        if name = "new".toList then []
        else
          (builder.superPath qual).map (fun k => (k, name, true)) ++
            if (builder.entry? (builder.metaOf qual)).isSome then
              (builder.instancePath (builder.metaOf qual) true).map fun k => (k, name, false)
            else []
      else (builder.instancePath qual false).map fun k => (k, name, false)

/-- What an entry offers to the reopens below it. -/
def offered (key : PendingKey) : Option MethodSlot :=
  builder.offerAt key.2.1 key.2.2 key.1

def IsNew (key : PendingKey) : Prop :=
  key.2 = ("new".toList, true)

instance (key : PendingKey) : Decidable (IsNew key) :=
  inferInstanceAs (Decidable (key.2 = _))

theorem inheritedInstanceSlot_eq (qual name : Text) (includeSelf : Bool) :
    builder.inheritedInstanceSlot qual name includeSelf =
      ((builder.instancePath qual includeSelf).map fun k => (k, name, false)).findSome?
        builder.offered := by
  rw [inheritedInstanceSlot, Breadth.search_eq, List.findSome?_map]
  rfl

theorem inheritedSlot_eq {key : PendingKey} (ordinary : ¬ IsNew key) :
    builder.inheritedSlot key = (builder.path key).findSome? builder.offered := by
  obtain ⟨qual, name, single⟩ := key
  cases single with
  | false => exact builder.inheritedInstanceSlot_eq qual name false
  | true =>
      have differs : name ≠ "new".toList := fun same => ordinary (by rw [IsNew, same])
      simp only [inheritedSlot, path, if_true, inheritedSingletonSlot, if_neg differs,
        List.findSome?_append, Breadth.search_eq]
      congr 1
      · rw [List.findSome?_map]
        rfl
      · rcases loaded : builder.entry? (builder.metaOf qual) with _ | entry
        · rfl
        · exact builder.inheritedInstanceSlot_eq _ _ _

theorem entry_none_of_not_mem {qual : Text} (absent : qual ∉ builder.qualified.map Prod.fst) :
    builder.entry? qual = none := by
  rw [ entry?, List.lookup_eq_none_iff]
  intro loaded mem
  rw [bne_iff_ne]
  exact fun same => absent (same ▸ List.mem_map_of_mem mem)

/-- The walks end: more fuel makes no difference. -/
theorem inheritedInstanceSlot_fuel (qual name : Text) (includeSelf : Bool) (more : Nat) :
    let seen := if includeSelf then [] else [qual]
    let queue := if includeSelf then [qual] else builder.links qual
    Breadth.search builder.links (builder.offerAt name false)
      (builder.fuel builder.links queue + more) seen queue =
        builder.inheritedInstanceSlot qual name includeSelf := by
  apply Breadth.search_of_cost_le
  · intro node absent
    rw [links, healthLinks, builder.entry_none_of_not_mem absent]
    rfl
  · apply Nat.le_succ_of_le
    cases includeSelf with
    | true => exact le_rfl
    | false => exact Nat.add_le_add_left (Breadth.sum_weight_cons_le _ _ _ _) _

theorem superWalk_fuel (qual name : Text) (more : Nat) :
    let queue := builder.superLinks qual
    Breadth.search builder.superLinks (builder.offerAt name true)
      (builder.fuel builder.superLinks queue + more) [] queue =
        ((builder.superPath qual).map fun k => (k, name, true)).findSome? builder.offered := by
  intro queue
  rw [List.findSome?_map]
  apply (Breadth.search_of_cost_le _ _ (Nat.le_succ _) more).trans (Breadth.search_eq ..)
  intro node absent
  rw [superLinks, builder.entry_none_of_not_mem absent]
  rfl

/-! ## The rounds as settling cells -/

def found (key : PendingKey) (path : Option MethodSlot) : Option MethodSlot :=
  if IsNew key then builder.inheritedSlot key else path

/-- Each pending entry is a cell, which is settled by its folded entry. -/
def cells : Cells.System PendingKey MethodSlot (MethodEntry Shapes Sig × Bool) where
  path := builder.path
  base := builder.offered
  outcome key path := (builder.members key).foldInto (builder.found key path)
  offered folded := folded.1.offer

/-- The builder and the unresolved keys where some entries are folded. -/
structure Folded (folded : PendingKey → Option (MethodEntry Shapes Sig × Bool))
    (state : OverloadBuilder Shapes Sig × List PendingKey) : Prop where
  members : state.1 = { builder with
    members := fun key => (folded key).elim (builder.members key) Prod.fst }
  unresolved : ∀ key, key ∈ state.2 ↔ ∃ slot, folded key = some (slot, true)
  loaded : ∀ key slot, folded key = some slot → (builder.entry? key.1).isSome = true

variable {builder}

theorem inheritedSlot_folded {folded : PendingKey → Option (MethodEntry Shapes Sig × Bool)}
    (loaded : ∀ key slot, folded key = some slot → (builder.entry? key.1).isSome = true)
    {key : PendingKey} (fresh : folded key = none) :
    ({ builder with members := fun key => (folded key).elim (builder.members key) Prod.fst } :
      OverloadBuilder Shapes Sig).inheritedSlot key =
        builder.found key ((builder.path key).findSome? (builder.cells.offer folded)) := by
  rw [found]
  split
  · rename_i isNew
    obtain ⟨qual, name, single⟩ := key
    obtain ⟨rfl, rfl⟩ := Prod.mk.inj isNew
    simp only [inheritedSlot, if_true, inheritedSingletonSlot, fresh, Option.elim_none]
    rfl
  · rename_i ordinary
    rw [inheritedSlot_eq _ ordinary]
    apply congrArg (List.findSome? · (builder.path key))
    funext other
    rcases done : folded other with _ | slot
    · rw [Cells.System.offer_of_none done]
      simp only [offered, offerAt, done, Option.elim_none]
      rfl
    · obtain ⟨entry, loaded⟩ := Option.isSome_iff_exists.mp (loaded other slot done)
      rw [Cells.System.offer_of_some done]
      have loaded' : (builder.qualified.lookup other.1) = some entry := loaded
      simp only [offered, offerAt, done, Option.elim_some, entry?, loaded', Option.bind_some]
      rfl

theorem Folded.resolveOne {folded : PendingKey → Option (MethodEntry Shapes Sig × Bool)}
    {state : OverloadBuilder Shapes Sig × List PendingKey} (holds : builder.Folded folded state)
    {key : PendingKey} (loaded : (builder.entry? key.1).isSome = true)
    (fresh : folded key = none) :
    builder.Folded (builder.cells.settle folded key) (resolveOne state key) := by
  obtain ⟨after, unresolved⟩ := state
  obtain ⟨rfl, unresolvedIff, loadedOf⟩ := holds
  obtain ⟨entry, isEntry⟩ := Option.isSome_iff_exists.mp loaded
  set outcome := builder.cells.outcome key ((builder.path key).findSome?
    (builder.cells.offer folded)) with isOutcome
  have settled : builder.cells.settle folded key = Function.update folded key (some outcome) := rfl
  have step : OverloadBuilder.resolveOne ({ builder with
      members := fun key => (folded key).elim (builder.members key) Prod.fst }, unresolved) key =
      ({ builder with
          members := Function.update (fun key => (folded key).elim (builder.members key) Prod.fst)
            key outcome.1 }, if outcome.2 then key :: unresolved else unresolved) := by
    have isEntry' : builder.qualified.lookup key.1 = some entry := isEntry
    simp only [OverloadBuilder.resolveOne, inheritedSlot_folded loadedOf fresh, entry?, isEntry',
      fresh, Option.elim_none]
    rfl
  have updated : Function.update (fun key => (folded key).elim (builder.members key) Prod.fst) key
      outcome.1 = fun other => (Function.update folded key (some outcome) other).elim
        (builder.members other) Prod.fst := by
    funext other
    by_cases equal : other = key <;> simp [equal]
  rw [step, settled, updated]
  constructor
  · rfl
  · intro other
    by_cases equal : other = key
    · subst equal
      have absent : other ∉ unresolved := fun mem => by
        obtain ⟨slot, done⟩ := (unresolvedIff other).mp mem
        simp [fresh] at done
      obtain ⟨slot, isUnresolved⟩ := outcome
      cases isUnresolved <;> simp [absent]
    · rw [Function.update_of_ne equal, ← unresolvedIff other]
      split <;> simp [equal]
  · intro other slot done
    by_cases equal : other = key
    · exact equal ▸ loaded
    · rw [Function.update_of_ne equal] at done
      exact loadedOf other slot done

theorem Folded.foldl {order : List PendingKey}
    {folded : PendingKey → Option (MethodEntry Shapes Sig × Bool)}
    {state : OverloadBuilder Shapes Sig × List PendingKey} (holds : builder.Folded folded state)
    (loaded : ∀ key ∈ order, (builder.entry? key.1).isSome = true) (distinct : order.Nodup)
    (fresh : ∀ key ∈ order, folded key = none) :
    builder.Folded (order.foldl builder.cells.settle folded)
      (order.foldl OverloadBuilder.resolveOne state) := by
  induction order generalizing folded state with
  | nil => exact holds
  | cons key order ih =>
      obtain ⟨notMem, distinct⟩ := List.nodup_cons.mp distinct
      apply ih (holds.resolveOne (loaded key List.mem_cons_self) (fresh key List.mem_cons_self))
        (fun other mem => loaded other (List.mem_cons_of_mem _ mem)) distinct
      intro other mem
      have differs : other ≠ key := fun same => notMem (same ▸ mem)
      rw [Cells.System.settle, Function.update_of_ne differs]
      exact fresh other (List.mem_cons_of_mem _ mem)

/-! ## When the order makes no difference -/

/-- The order holds each pending key of the qualified table once. -/
structure Enumerates (builder : OverloadBuilder Shapes Sig) (order : List PendingKey) : Prop where
  distinct : order.Nodup
  mem_iff : ∀ key, key ∈ order ↔
    (builder.entry? key.1).isSome = true ∧ (builder.members key).pending.isSome = true

/-- Every order leaves the same slots, the same unresolved keys, and so the same sides that
do not build. -/
def FoldsAlike (builder : OverloadBuilder Shapes Sig) (order : List PendingKey) : Prop :=
  ∀ others, others.Perm order →
    (builder.resolveInheritedOverloads others).1 = (builder.resolveInheritedOverloads order).1 ∧
    (∀ key, key ∈ (builder.resolveInheritedOverloads others).2 ↔
      key ∈ (builder.resolveInheritedOverloads order).2) ∧
    ∀ projectOverloads dup failed,
      failed ∈ dupUnbuildable projectOverloads (builder.resolveInheritedOverloads others).2 dup ↔
        failed ∈ dupUnbuildable projectOverloads (builder.resolveInheritedOverloads order).2 dup

/-- The walk from a key comes to another pending key before any original. -/
def Passes (builder : OverloadBuilder Shapes Sig) (key other : PendingKey) : Prop :=
  ∃ front back, builder.path key = front ++ other :: back ∧
    ∀ nearer ∈ front, builder.offered nearer = none

/-- Where the walk from a key passes another pending key, the reopen combines with the other's
own fold as it does with what the walk finds beyond. -/
def FoldsHarmlessly (builder : OverloadBuilder Shapes Sig) (order : List PendingKey) : Prop :=
  ∀ key ∈ order, ∀ other ∈ order, other ≠ key → builder.Passes key other →
    ∀ slot, ((builder.members other).foldInto (builder.inheritedSlot other)).1.offer = some slot →
      (builder.members key).foldInto (some slot) =
        (builder.members key).foldInto (builder.inheritedSlot key)

theorem alone_cells (key : PendingKey) :
    builder.cells.alone key = (builder.members key).foldInto (builder.inheritedSlot key) := by
  change (builder.members key).foldInto (builder.found key _) = _
  rw [found]
  split
  · rfl
  · rename_i ordinary
    rw [inheritedSlot_eq _ ordinary]
    rfl

theorem harmless_iff {order : List PendingKey} :
    builder.cells.Harmless order ↔ builder.FoldsHarmlessly order := by
  unfold Cells.System.Harmless FoldsHarmlessly
  apply forall₂_congr
  intro key _
  apply forall₂_congr
  intro other _
  apply forall₂_congr
  rintro - ⟨front, back, split, -⟩
  have ordinary : ¬ IsNew key := by
    rintro isNew
    obtain ⟨qual, name, single⟩ := key
    obtain ⟨rfl, rfl⟩ := Prod.mk.inj isNew
    simp [cells, path] at split
  apply forall_congr'
  intro slot
  rw [alone_cells, alone_cells]
  have same : builder.cells.outcome key (some slot) = (builder.members key).foldInto (some slot) := by
    change (builder.members key).foldInto (builder.found key _) = _
    rw [found, if_neg ordinary]
  rw [same]
  rfl

theorem dupUnbuildable_congr {unresolved others : List PendingKey}
    (same : ∀ key, key ∈ others ↔ key ∈ unresolved) (projectOverloads : List PendingKey)
    (dup : List (Text × Bool)) :
    dupUnbuildable projectOverloads others dup = dupUnbuildable projectOverloads unresolved dup := by
  have filters : projectOverloads.filter (others.contains ·) =
      projectOverloads.filter (unresolved.contains ·) := by
    apply List.filter_congr
    intro key _
    simp [same key]
  rw [dupUnbuildable, dupUnbuildable, filters]

/-- A run of the cells describes the loop. -/
theorem folded_run {order : List PendingKey} (loaded : ∀ key ∈ order, (builder.entry? key.1).isSome)
    (distinct : order.Nodup) :
    builder.Folded (builder.cells.run order) (order.foldl resolveOne (builder, [])) := by
  have start : builder.Folded (fun _ => none) (builder, []) :=
    ⟨rfl, by simp, by simp⟩
  exact start.foldl loaded distinct fun _ _ => rfl

/-- The loop determines the run of the cells. -/
theorem run_eq_of_folded {order others : List PendingKey} (same : others.Perm order)
    {after after' : OverloadBuilder Shapes Sig × List PendingKey}
    (folded : builder.Folded (builder.cells.run order) after)
    (folded' : builder.Folded (builder.cells.run others) after')
    (members : after'.1.members = after.1.members)
    (unresolved : ∀ key, key ∈ after'.2 ↔ key ∈ after.2) :
    builder.cells.run others = builder.cells.run order := by
  funext key
  rcases done : builder.cells.run order key with _ | ⟨slot, isUnresolved⟩
  · rw [Cells.System.run_eq_none_iff] at done ⊢
    exact fun mem => done (same.subset mem)
  · rcases done' : builder.cells.run others key with _ | ⟨slot', isUnresolved'⟩
    · rw [Cells.System.run_eq_none_iff] at done'
      have absent : key ∉ order := fun mem => done' (same.symm.subset mem)
      rw [← @Cells.System.run_eq_none_iff _ _ _ builder.cells, done] at absent
      simp at absent
    · have slots := congrFun members key
      rw [folded.members, folded'.members] at slots
      have marks := unresolved key
      rw [folded.unresolved, folded'.unresolved] at marks
      simp only [done, done', Option.elim_some, Option.some.injEq, Prod.mk.injEq,
        exists_and_right, exists_eq', true_and] at slots marks
      rw [slots, Bool.eq_iff_iff.mpr marks]

theorem foldsAlike_iff {order : List PendingKey} (enumerates : builder.Enumerates order) :
    builder.FoldsAlike order ↔ builder.FoldsHarmlessly order := by
  have loaded : ∀ key ∈ order, (builder.entry? key.1).isSome := fun key mem =>
    ((enumerates.mem_iff key).mp mem).1
  have silent : ∀ key ∈ order, builder.cells.base key = none := by
    intro key mem
    obtain ⟨entry, isEntry⟩ := Option.isSome_iff_exists.mp (loaded key mem)
    change (builder.entry? key.1).bind _ = none
    rw [isEntry, Option.bind_some, MethodEntry.offer, if_pos ((enumerates.mem_iff key).mp mem).2]
  have folded := folded_run loaded enumerates.distinct
  have foldedOf (others : List PendingKey) (perm : others.Perm order) :
      builder.Folded (builder.cells.run others) (others.foldl resolveOne (builder, [])) :=
    folded_run (fun key mem => loaded key (perm.subset mem)) (perm.nodup_iff.mpr enumerates.distinct)
  rw [← harmless_iff, ← Cells.System.run_perm_iff silent enumerates.distinct]
  constructor
  · intro alike others perm
    obtain ⟨builders, unresolved, -⟩ := alike others perm
    have members : (others.foldl resolveOne (builder, [])).1.members =
        (order.foldl resolveOne (builder, [])).1.members := by
      have same := congrArg OverloadBuilder.members builders
      exact same
    exact run_eq_of_folded perm folded (foldedOf others perm) members unresolved
  · intro same others perm
    have folded' := foldedOf others perm
    rw [same others perm] at folded'
    have builders : (builder.resolveInheritedOverloads others).1 =
        (builder.resolveInheritedOverloads order).1 := by
      simp only [resolveInheritedOverloads, folded.members, folded'.members]
    have unresolved (key : PendingKey) : key ∈ (builder.resolveInheritedOverloads others).2 ↔
        key ∈ (builder.resolveInheritedOverloads order).2 :=
      (folded'.unresolved key).trans (folded.unresolved key).symm
    refine ⟨builders, unresolved, fun projectOverloads dup failed => ?_⟩
    rw [dupUnbuildable_congr unresolved]

/-! ## Two reopens of one method -/

/-- `A < B`, both with a reopen of `m` and without an original; `order` of the pending keys. -/
def twoReopens : OverloadBuilder Unit Text where
  qualified := [("A".toList, ⟨false, [], [], some ("B".toList, [])⟩),
    ("B".toList, ⟨false, [], [], none⟩)]
  knownTypeNames := ["A".toList, "B".toList]
  members := fun key =>
    if key.2 = ("m".toList, false) then
      { method := some ⟨none, some (1, some 1), false⟩, pending := some false }
    else .empty
  classes := []
  shortMembers := fun _ => .empty

def pendingOf (classes : List Text) : List PendingKey :=
  classes.map fun name => (name, "m".toList, false)

theorem enumerates_twoReopens : twoReopens.Enumerates (pendingOf ["A".toList, "B".toList]) where
  distinct := by decide
  mem_iff key := by
    obtain ⟨qual, key⟩ := key
    by_cases isM : key = ("m".toList, false)
    · subst isM
      by_cases isA : qual = "A".toList
      · subst isA
        decide
      · by_cases isB : qual = "B".toList
        · subst isB
          decide
        · have notA : qual ≠ ['A'] := isA
          have notB : qual ≠ ['B'] := isB
          simp [pendingOf, entry?, twoReopens, List.lookup_cons, beq_false_of_ne notA,
            beq_false_of_ne notB, notA, notB]
    · have silent : (twoReopens.members (qual, key)).pending = none := by
        simp only [twoReopens, if_neg isM]
        rfl
      have notM : key ≠ (['m'], false) := isM
      rw [silent]
      simp [pendingOf, notM]

theorem foldsAlike_twoReopens : twoReopens.FoldsAlike (pendingOf ["A".toList, "B".toList]) ↔
    twoReopens.FoldsHarmlessly (pendingOf ["A".toList, "B".toList]) :=
  foldsAlike_iff enumerates_twoReopens

/-- Folded from below both reopens are unresolved, folded from above only one. -/
theorem not_foldsAlike_twoReopens : ¬ ∀ (builder : OverloadBuilder Unit Text)
    (order : List PendingKey), builder.Enumerates order → builder.FoldsAlike order := by
  intro claimed
  obtain ⟨-, unresolved, -⟩ := claimed twoReopens _ enumerates_twoReopens
    (pendingOf ["B".toList, "A".toList]) (List.Perm.swap _ _ _)
  have above : (twoReopens.resolveInheritedOverloads (pendingOf ["B".toList, "A".toList])).2 =
      pendingOf ["B".toList] := by decide
  have below : (twoReopens.resolveInheritedOverloads (pendingOf ["A".toList, "B".toList])).2 =
      pendingOf ["B".toList, "A".toList] := by decide
  have marks := unresolved ("A".toList, "m".toList, false)
  rw [above, below] at marks
  exact absurd (marks.mpr (by decide)) (by decide)

end OverloadBuilder

end Rigor.Index
