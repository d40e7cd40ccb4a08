import Rigor.Library.Order
import Rigor.Types.Interner

/-!
# Lattice algebra on handles

`join` and `normalize` of `algebra.rs`, threading the interner.  The recursive
functions take fuel, and answer `none` when it runs out or when a handle is out
of range of the arena.
-/

namespace Rigor.Types

open Rigor.Library.Order

/-- The two combinations of the lattice; the source has each function on members
once for unions and once for intersections. -/
inductive Side where
  | union
  | intersection

namespace Side

/-- The type that the flattening drops. -/
@[simp]
def neutral : Side → Ty
  | union => .bottom
  | intersection => .top

/-- The type that decides the whole combination. -/
@[simp]
def absorbing : Side → Ty
  | union => .top
  | intersection => .bottom

@[simp]
def build : Side → List TypeId → Ty
  | union, members => .union members
  | intersection, members => .intersection members

/-- The members that the flattening descends into. -/
def parts : Side → Ty → Option (List TypeId)
  | union, .union members => some members
  | intersection, .intersection members => some members
  | _, _ => none

/-- The carriers that the flattening of a side pushes. -/
def Pushed (side : Side) (ty : Ty) : Prop :=
  ty ≠ side.neutral ∧ ∀ members, ty ≠ side.build members

theorem parts_build (side : Side) (members : List TypeId) :
    side.parts (side.build members) = some members := by
  cases side <;> rfl

theorem build_ne_neutral (side : Side) (members : List TypeId) :
    side.build members ≠ side.neutral := by
  cases side <;> simp [build, neutral]

theorem build_injective (side : Side) : Function.Injective side.build := by
  intro members others same
  cases side <;> simpa [build] using same

/-- The neutral type is dropped, a combination is flattened, the rest is pushed. -/
theorem kinds (side : Side) (ty : Ty) :
    ty = side.neutral ∨ (∃ members, ty = side.build members) ∨
      side.Pushed ty ∧ side.parts ty = none := by
  by_cases isNeutral : ty = side.neutral
  · exact Or.inl isNeutral
  · cases side with
    | union =>
        cases ty with
        | union members => exact Or.inr (Or.inl ⟨members, rfl⟩)
        | _ => exact Or.inr (Or.inr ⟨⟨isNeutral, by simp [build]⟩, rfl⟩)
    | intersection =>
        cases ty with
        | intersection members => exact Or.inr (Or.inl ⟨members, rfl⟩)
        | _ => exact Or.inr (Or.inr ⟨⟨isNeutral, by simp [build]⟩, rfl⟩)

theorem children_build (side : Side) (members : List TypeId) :
    (side.build members).children = members := by
  cases side <;> rfl

end Side

namespace Interner

/-- The handle of the neutral type: what the empty combination collapses to. -/
def neutral (i : Interner) : Side → TypeId
  | .union => i.bottom
  | .intersection => i.top

/-- The handle of the absorbing type. -/
def absorbing (i : Interner) : Side → TypeId
  | .union => i.top
  | .intersection => i.bottom

/-- The outcome of a call that mutates the interner. -/
abbrev Outcome := Option (TypeId × Interner)

def isBottom (i : Interner) (id : TypeId) : Bool :=
  i.get id = some .bottom

/-- Plain `top`, not `Dynamic[top]`. -/
def isPlainTop (i : Interner) (id : TypeId) : Bool :=
  i.get id = some .top

/-- The static facet of `Dynamic[T]`. -/
def asDynamic (i : Interner) (id : TypeId) : Option TypeId :=
  match i.get id with
  | some (.dynamic facet) => some facet
  | _ => none

/-- Push the members of `id` into `out`, flattening nested combinations and
dropping the neutral type. -/
def collectMembers (side : Side) (i : Interner) :
    Nat → TypeId → List TypeId → Option (List TypeId)
  | 0, _, _ => none
  | fuel + 1, id, out =>
      (i.get id).bind fun ty =>
        if ty = side.neutral then some out
        else
          match side.parts ty with
          | some members =>
              members.foldlM (fun out member => collectMembers side i fuel member out) out
          | none => some (out ++ [id])

/-- `collect_union_members`. -/
def collectUnionMembers (i : Interner) : Nat → TypeId → List TypeId → Option (List TypeId) :=
  i.collectMembers .union

/-- `collect_intersection_members`. -/
def collectIntersectionMembers (i : Interner) :
    Nat → TypeId → List TypeId → Option (List TypeId) :=
  i.collectMembers .intersection

/-- Collapse the empty and the one-member combination, else intern it. -/
def internCombined (side : Side) (i : Interner) : List TypeId → TypeId × Interner
  | [] => (i.neutral side, i)
  | [member] => (member, i)
  | members => i.intern (side.build members)

/-- Sort and deduplicate the members, then build the canonical combination. -/
def makeCombined (side : Side) (fuel : Nat) (i : Interner) (members : List TypeId) : Outcome :=
  if members.any fun m => i.get m = some side.absorbing then some (i.absorbing side, i)
  else
    (sortBy (i.cmp fuel) members).map fun sorted => i.internCombined side (dedupAdjacent sorted)

/-- `make_union`. -/
def makeUnion : Nat → Interner → List TypeId → Outcome :=
  makeCombined .union

/-- `make_intersection`. -/
def makeIntersection : Nat → Interner → List TypeId → Outcome :=
  makeCombined .intersection

/-- `Algebra::join`. -/
def join : Nat → Interner → TypeId → TypeId → Outcome
  | 0, _, _, _ => none
  | fuel + 1, i, a, b =>
      if a = b then some (a, i)
      else if i.isBottom a then some (b, i)
      else if i.isBottom b then some (a, i)
      else if i.isPlainTop a || i.isPlainTop b then some (i.top, i)
      else
        match i.asDynamic a, i.asDynamic b with
        | some fa, some fb => (join fuel i fa fb).map fun (facet, i) => i.intern (.dynamic facet)
        | some fa, none => (join fuel i fa b).map fun (facet, i) => i.intern (.dynamic facet)
        | none, some fb => (join fuel i a fb).map fun (facet, i) => i.intern (.dynamic facet)
        | none, none =>
            (i.collectUnionMembers fuel a []).bind fun members =>
              (i.collectUnionMembers fuel b members).bind fun members =>
                makeUnion fuel i members

/-- The member loops of `normalize`: normalize each member in turn and collect
its members, with the interner as it stands after it. -/
def normalizeMembers (normalize : Interner → TypeId → Outcome)
    (collect : Interner → TypeId → List TypeId → Option (List TypeId)) :
    Interner → List TypeId → List TypeId → Option (List TypeId × Interner)
  | i, [], flat => some (flat, i)
  | i, member :: rest, flat =>
      (normalize i member).bind fun (n, i) =>
        (collect i n flat).bind fun flat => normalizeMembers normalize collect i rest flat

/-- `Algebra::normalize`. -/
def normalize : Nat → Interner → TypeId → Outcome
  | 0, _, _ => none
  | fuel + 1, i, id =>
      match i.get id with
      | none => none
      | some (.union members) =>
          (normalizeMembers (normalize fuel) (fun i => i.collectUnionMembers fuel) i members
            []).bind fun (flat, i) => makeUnion fuel i flat
      | some (.intersection members) =>
          (normalizeMembers (normalize fuel) (fun i => i.collectIntersectionMembers fuel) i members
            []).bind fun (flat, i) => makeIntersection fuel i flat
      | some (.dynamic facet) =>
          (normalize fuel i facet).map fun (f, i) => i.intern (.dynamic f)
      | some _ => some (id, i)

end Interner

end Rigor.Types
