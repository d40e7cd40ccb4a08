import Rigor.Infer.Source.Merge
import Rigor.Rust.Colons

/-!
# Walks over the project's ancestors

The override index keeps the written names of the ancestors of each class or module.  A name
is resolved in the scopes around the class.  The walks follow the resolved names, up to a
limit of visited nodes.
-/

namespace Rigor.Infer.Source

open Rigor.Text (splitColons joinColons stripRoot)

universe v

/-- The candidates for a name written on a class: in each scope around the class, the longest
first, and bare at last. -/
def scopedCandidates (owner raw : Text) : List Text :=
  let segments := splitColons owner
  (List.range segments.length).reverse.map fun i =>
    if i = 0 then raw else joinColons (segments.take i) ++ "::".toList ++ raw

/-- `OVERRIDE_ANCESTOR_WALK_LIMIT`. -/
def overrideAncestorWalkLimit : Nat :=
  100

/-- The fields of the merged index that the ancestor walks read, under qualified names. -/
structure AncestorTables (Refinement : Type v) where
  overrideClasses : List (Text × OverrideClass Refinement)
  definers : List ((Text × DefKind) × List Text)

namespace AncestorTables

variable {Refinement : Type v} (tables : AncestorTables Refinement)

def declares (name : Text) : Bool :=
  (tables.overrideClasses.lookup name).isSome

/-- `resolve_override_ancestor`. -/
def resolveOverrideAncestor (subclass raw : Text) : Option Text :=
  (scopedCandidates subclass (stripRoot raw)).find? tables.declares

/-- `override_ancestor_names`: the mixins in source order, then the superclass. -/
def overrideAncestorNames (className : Text) : List Text :=
  match tables.overrideClasses.lookup className with
  | none => []
  | some entry =>
      (entry.includes ++ entry.superclass.toList).filterMap (tables.resolveOverrideAncestor className)

/-- `project_superclass`. -/
def projectSuperclass (className : Text) : Option Text :=
  (tables.overrideClasses.lookup className).bind fun entry =>
    entry.superclass.bind (tables.resolveOverrideAncestor className)

/-- `extended_names`. -/
def extendedNames (className : Text) : List Text :=
  match tables.overrideClasses.lookup className with
  | none => []
  | some entry => entry.extends_.filterMap (tables.resolveOverrideAncestor className)

/-- `owner_defines`. -/
def ownerDefines (owner method : Text) (kind : DefKind) : Bool :=
  match tables.definers.lookup (method, kind) with
  | none => false
  | some owners => owners.contains owner

/-! ## The walks -/

/-- The breadth-first walk for a definer.  The nodes that were seen are skipped; the source
counts the visited nodes up to the limit, the model those that remain. -/
def walkForOwner (method : Text) : Nat → List Text → List Text → Option Text
  | remaining, seen, queue =>
      match queue.dropWhile seen.contains with
      | [] => none
      | current :: rest =>
          match remaining with
          | 0 => none
          | remaining + 1 =>
              if tables.ownerDefines current method .inst then some current
              else
                walkForOwner method remaining (current :: seen)
                  (rest ++ tables.overrideAncestorNames current)

/-- `resolve_instance_owner_bfs`. -/
def resolveInstanceOwnerBfs (qual method : Text) : Option Text :=
  if tables.ownerDefines qual method .inst then some qual
  else
    tables.walkForOwner method overrideAncestorWalkLimit [qual] (tables.overrideAncestorNames qual)

/-- The walk up the superclasses: the class methods of each class, then the instance methods of
the modules that it extends. -/
def singletonSlot (method : Text) : Nat → List Text → Text → Option (Text × DefKind)
  | 0, _, _ => none
  | remaining + 1, seen, current =>
      if seen.contains current then none
      else if tables.ownerDefines current method .singleton then some (current, .singleton)
      else
        match (tables.extendedNames current).find? (tables.ownerDefines · method .inst) with
        | some extended => some (extended, .inst)
        | none =>
            (tables.projectSuperclass current).bind
              (singletonSlot method remaining (current :: seen))

/-- `resolve_singleton_slot`. -/
def resolveSingletonSlot (qual method : Text) : Option (Text × DefKind) :=
  tables.singletonSlot method overrideAncestorWalkLimit [] qual

/-- The walk that collects the ancestors, and whether it came back to the candidate.  The node
after the limit is recorded but not expanded. -/
def walkClosure (candidate : Text) : Nat → List Text → List Text → List Text × Bool
  | remaining, seen, queue =>
      let back := (queue.takeWhile seen.contains).contains candidate
      match queue.dropWhile seen.contains with
      | [] => (seen, back)
      | current :: rest =>
          match remaining with
          | 0 => (current :: seen, back)
          | remaining + 1 =>
              let (closure, later) := walkClosure candidate remaining (current :: seen)
                (rest ++ tables.overrideAncestorNames current)
              (closure, back || later)

/-- `build_ancestor_closure`: the candidate itself is in it only if the walk came back to it. -/
def ancestorClosure (candidate : Text) : List Text :=
  let (closure, back) := tables.walkClosure candidate overrideAncestorWalkLimit [candidate]
    (tables.overrideAncestorNames candidate)
  if back then closure else closure.filter (· != candidate)

/-- `overridden_in_project`: another definer has the owner among its ancestors. -/
def overriddenInProject (owner method : Text) (kind : DefKind) : Bool :=
  match tables.definers.lookup (method, kind) with
  | none => false
  | some candidates =>
      candidates.any fun candidate =>
        candidate != owner && (tables.ancestorClosure candidate).contains owner

/-! ## What the walks follow -/

/-- One of the resolved ancestor names. -/
def AncestorEdge (sub sup : Text) : Prop :=
  sup ∈ tables.overrideAncestorNames sub

def SuperclassEdge (sub sup : Text) : Prop :=
  tables.projectSuperclass sub = some sup

/-- The project ancestry of an instance, or of a class object. -/
def Ancestry : DefKind → Text → Text → Prop
  | .inst => Relation.ReflTransGen tables.AncestorEdge
  | .singleton => Relation.ReflTransGen tables.SuperclassEdge

variable {tables}

theorem walkForOwner_spec {method : Text} {remaining : Nat} {seen queue : List Text} {owner : Text}
    (found : tables.walkForOwner method remaining seen queue = some owner) :
    tables.ownerDefines owner method .inst = true ∧
      ∃ start ∈ queue, Relation.ReflTransGen tables.AncestorEdge start owner := by
  induction remaining generalizing seen queue with
  | zero =>
      rw [walkForOwner] at found
      split at found <;> simp at found
  | succ remaining ih =>
      rw [walkForOwner] at found
      rcases front : queue.dropWhile seen.contains with _ | ⟨current, rest⟩
      · simp [front] at found
      · have current_mem : current ∈ queue :=
          (List.dropWhile_suffix _).mem (front ▸ List.mem_cons_self)
        have rest_mem : ∀ name ∈ rest, name ∈ queue := fun name mem =>
          (List.dropWhile_suffix _).mem (front ▸ List.mem_cons_of_mem _ mem)
        simp only [front] at found
        split at found
        · obtain rfl := Option.some.inj found
          exact ⟨‹_›, current, current_mem, .refl⟩
        · obtain ⟨defines, start, mem, path⟩ := ih found
          rcases List.mem_append.mp mem with mem | mem
          · exact ⟨defines, start, rest_mem start mem, path⟩
          · exact ⟨defines, current, current_mem, .head mem path⟩

theorem resolveInstanceOwnerBfs_spec {qual method owner : Text}
    (found : tables.resolveInstanceOwnerBfs qual method = some owner) :
    tables.ownerDefines owner method .inst = true ∧ tables.Ancestry .inst qual owner := by
  rw [resolveInstanceOwnerBfs] at found
  split at found
  · obtain rfl := Option.some.inj found
    exact ⟨‹_›, .refl⟩
  · obtain ⟨defines, start, edge, path⟩ := walkForOwner_spec found
    exact ⟨defines, .head edge path⟩

/-- Without `extend` the slot is a class method of a superclass. -/
theorem singletonSlot_spec (plain : ∀ className, tables.extendedNames className = [])
    {method : Text} {remaining : Nat} {seen : List Text} {current : Text} {slot : Text × DefKind}
    (found : tables.singletonSlot method remaining seen current = some slot) :
    slot.2 = .singleton ∧ tables.ownerDefines slot.1 method .singleton = true ∧
      tables.Ancestry .singleton current slot.1 := by
  induction remaining generalizing seen current with
  | zero => simp [singletonSlot] at found
  | succ remaining ih =>
      rw [singletonSlot, plain, List.find?_nil] at found
      split at found
      · simp at found
      · split at found
        · obtain rfl := Option.some.inj found
          exact ⟨rfl, ‹_›, .refl⟩
        · obtain ⟨sup, edge, rest⟩ := Option.bind_eq_some_iff.mp found
          obtain ⟨kind, defines, path⟩ := ih rest
          exact ⟨kind, defines, .head edge path⟩

theorem resolveSingletonSlot_self {owner method : Text}
    (defines : tables.ownerDefines owner method .singleton = true) :
    tables.resolveSingletonSlot owner method = some (owner, .singleton) := by
  rw [resolveSingletonSlot, overrideAncestorWalkLimit, singletonSlot, if_neg (by simp),
    if_pos defines]

end AncestorTables

end Rigor.Infer.Source
