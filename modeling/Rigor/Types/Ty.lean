import Rigor.Text

/-!
# The interned type carriers

The carrier set is generic in the handles of its children: the interner stores
carriers over `TypeId`, and resolving a handle gives carriers over carriers.
-/

namespace Rigor.Types

/-- Handle into the interner: the raw `u32` index. -/
structure TypeId where
  index : Nat
  deriving DecidableEq, Repr

abbrev ClassId := Nat

abbrev RefinementId := Nat

/-- Scalar literals.  A float is its raw bits, by which it is compared. -/
inductive Scalar where
  | int (value : Int64)
  | bigInt (spelling : Text)
  | str (value : Text)
  | sym (name : Text)
  | bool (value : Bool)
  | nil
  | float (bits : UInt64)
  deriving DecidableEq

namespace Scalar

def tag : Scalar → Nat
  | nil => 0
  | bool _ => 1
  | int _ => 2
  | float _ => 3
  | str _ => 4
  | sym _ => 5
  | bigInt _ => 6

/-- `Ord for Scalar`. -/
def cmp : Scalar → Scalar → Ordering
  | int a, int b => compare a b
  | bigInt a, bigInt b => a.cmp b
  | str a, str b => a.cmp b
  | sym a, sym b => a.cmp b
  | bool a, bool b => compare a b
  | nil, nil => .eq
  | float a, float b => compare a b
  | a, b => compare a.tag b.tag

end Scalar

/-- Keys of a hash shape, in the order of the derived `Ord`. -/
inductive ShapeKey where
  | sym (name : Text)
  | str (value : Text)
  | int (value : Int64)
  | float (bits : UInt64)
  | bool (value : Bool)
  | nil
  | other
  deriving DecidableEq

namespace ShapeKey

/-- Position of the variant in the declaration. -/
def tag : ShapeKey → Nat
  | sym _ => 0
  | str _ => 1
  | int _ => 2
  | float _ => 3
  | bool _ => 4
  | nil => 5
  | other => 6

/-- The derived `Ord for ShapeKey`: variants first, then payloads. -/
def cmp : ShapeKey → ShapeKey → Ordering
  | sym a, sym b => a.cmp b
  | str a, str b => a.cmp b
  | int a, int b => compare a b
  | float a, float b => compare a b
  | bool a, bool b => compare a b
  | a, b => compare a.tag b.tag

end ShapeKey

universe u v

/-- A member of a hash shape. -/
structure ShapeMember (α : Type u) where
  key : ShapeKey
  value : α
  optional : Bool
  deriving DecidableEq

/-- The carrier set, over the type `α` of child handles. -/
inductive Carrier (α : Type u) where
  | top
  | bottom
  | dynamic (facet : α)
  | nominal (classId : ClassId) (args : List α)
  | singleton (classId : ClassId)
  | constant (scalar : Scalar)
  | tuple (elements : List α)
  | hashShape (members : List (ShapeMember α))
  | integerRange (min max : Option Int64)
  | refined (base : α) (refinement : RefinementId)
  | difference (base removed : α)
  | intersection (members : List α)
  | complement (negated : α)
  | app (uri : Text) (args : List α)
  | dataInstance (classId : ClassId) (members : List (Text × α))
  | void
  | selfType
  | instanceType
  | classType
  | union (members : List α)
  deriving DecidableEq

/-- The carriers that the interner stores. -/
abbrev Ty := Carrier TypeId

namespace Carrier

variable {α : Type u} {β : Type v}

/-- Discriminant tag, the primary key of the order. -/
def tag : Carrier α → Nat
  | bottom => 0
  | top => 1
  | constant _ => 2
  | integerRange _ _ => 3
  | nominal _ _ => 4
  | tuple _ => 5
  | hashShape _ => 6
  | dataInstance _ _ => 7
  | refined _ _ => 8
  | app _ _ => 9
  | intersection _ => 10
  | difference _ _ => 11
  | complement _ => 12
  | dynamic _ => 13
  | union _ => 14
  | void => 15
  | selfType => 16
  | instanceType => 17
  | classType => 18
  | singleton _ => 19

/-- The child handles, in the order the comparison meets them. -/
def children : Carrier α → List α
  | dynamic facet => [facet]
  | nominal _ args => args
  | tuple elements => elements
  | hashShape members => members.map ShapeMember.value
  | refined base _ => [base]
  | difference base removed => [base, removed]
  | intersection members => members
  | complement negated => [negated]
  | app _ args => args
  | dataInstance _ members => members.map Prod.snd
  | union members => members
  | _ => []

/-- Replace every child handle. -/
def map (f : α → β) : Carrier α → Carrier β
  | top => top
  | bottom => bottom
  | dynamic facet => dynamic (f facet)
  | nominal classId args => nominal classId (args.map f)
  | singleton classId => singleton classId
  | constant scalar => constant scalar
  | tuple elements => tuple (elements.map f)
  | hashShape members =>
      hashShape (members.map fun member => ⟨member.key, f member.value, member.optional⟩)
  | integerRange min max => integerRange min max
  | refined base refinement => refined (f base) refinement
  | difference base removed => difference (f base) (f removed)
  | intersection members => intersection (members.map f)
  | complement negated => complement (f negated)
  | app uri args => app uri (args.map f)
  | dataInstance classId members =>
      dataInstance classId (members.map fun member => (member.1, f member.2))
  | void => void
  | selfType => selfType
  | instanceType => instanceType
  | classType => classType
  | union members => union (members.map f)

end Carrier

/-! ## Comparing carriers

A comparison of child handles may have no answer (it panics or does not return),
hence the options.
-/

/-- `first.then_with(next)`, also the early return of the comparison loops. -/
def thenWith (first next : Option Ordering) : Option Ordering :=
  match first with
  | some .eq => next
  | decided => decided

variable {α : Type u} {β : Type v}

/-- The loops over `a.iter().zip(b.iter())`: the first difference decides. -/
def firstDifference (cmp : β → β → Option Ordering) : List (β × β) → Option Ordering
  | [] => some .eq
  | (x, y) :: rest => thenWith (cmp x y) (firstDifference cmp rest)

/-- `Interner::cmp_slice`. -/
def cmpSlice (cmp : α → α → Option Ordering) (a b : List α) : Option Ordering :=
  thenWith (firstDifference cmp (a.zip b)) (some (compare a.length b.length))

/-- One round of the hash shape loop: key, optionality, value. -/
def ShapeMember.compareWith (cmp : α → α → Option Ordering) (x y : ShapeMember α) :
    Option Ordering :=
  thenWith (some (x.key.cmp y.key)) <|
    thenWith (some (compare x.optional y.optional)) (cmp x.value y.value)

/-- One round of the data instance loop: name, value. -/
def compareNamed (cmp : α → α → Option Ordering) (x y : Text × α) : Option Ordering :=
  thenWith (some (x.1.cmp y.1)) (cmp x.2 y.2)

/-- The body of `Interner::cmp` after the two carriers are looked up. -/
def Carrier.compareWith (cmp : α → α → Option Ordering) (a b : Carrier α) : Option Ordering :=
  thenWith (some (compare a.tag b.tag)) <|
    match a, b with
    | .constant x, .constant y => some (x.cmp y)
    | .integerRange amin amax, .integerRange bmin bmax =>
        some ((compare amin bmin).then (compare amax bmax))
    | .nominal ac aargs, .nominal bc bargs =>
        thenWith (some (compare ac bc)) (cmpSlice cmp aargs bargs)
    | .singleton ac, .singleton bc => some (compare ac bc)
    | .tuple x, .tuple y => cmpSlice cmp x y
    | .hashShape x, .hashShape y =>
        thenWith (some (compare x.length y.length)) <|
          firstDifference (ShapeMember.compareWith cmp) (x.zip y)
    | .dataInstance ac am, .dataInstance bc bm =>
        thenWith (some (compare ac bc)) <|
          thenWith (some (compare am.length bm.length)) <|
            firstDifference (compareNamed cmp) (am.zip bm)
    | .refined ab ar, .refined bb br => thenWith (cmp ab bb) (some (compare ar br))
    | .app au aa, .app bu ba => thenWith (some (au.cmp bu)) (cmpSlice cmp aa ba)
    | .intersection x, .intersection y => cmpSlice cmp x y
    | .difference ab ar, .difference bb br => thenWith (cmp ab bb) (cmp ar br)
    | .complement x, .complement y => cmp x y
    | .dynamic x, .dynamic y => cmp x y
    | .union x, .union y => cmpSlice cmp x y
    | _, _ => some .eq

end Rigor.Types
