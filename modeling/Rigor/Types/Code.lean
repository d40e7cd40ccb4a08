import Rigor.Library.Order
import Rigor.Types.Ty

/-!
# Carriers as words

A carrier is coded as a word of numbers, texts and child handles.  The code is
injective, and `compareWith` compares carriers as the lexicographic order
compares their codes, so all the order laws come from one order on the letters.
-/

namespace Rigor.Types

open Rigor.Library.Order

universe u v

/-- The letters of a code. -/
inductive Field (α : Type u) where
  | num (value : Int)
  | text (value : Text)
  | child (handle : α)

namespace Field

variable {α : Type u} {β : Type v}

def kind : Field α → Nat
  | num _ => 0
  | text _ => 1
  | child _ => 2

/-- Letters of different kinds are compared by kind. -/
def cmp (ord : α → α → Ordering) : Field α → Field α → Ordering
  | num a, num b => compare a b
  | text a, text b => a.cmp b
  | child a, child b => ord a b
  | a, b => compare a.kind b.kind

def map (f : α → β) : Field α → Field β
  | num value => num value
  | text value => text value
  | child handle => child (f handle)

/-- The handle in the letter, if any, satisfies `P`. -/
def Holds (P : α → Prop) : Field α → Prop
  | child handle => P handle
  | _ => True

theorem text_cmp_linear : LinearOn (fun _ => True) Text.cmp :=
  LinearOn.of_lawful (List.compareLex compare)

theorem cmp_linear {P : α → Prop} {ord : α → α → Ordering} (linear : LinearOn P ord) :
    LinearOn (Holds P) (cmp ord) where
  eq_iff {a b} aHolds bHolds := by
    cases a <;> cases b <;> simp only [cmp, kind, num.injEq, text.injEq, child.injEq, reduceCtorEq]
    · exact Std.LawfulEqCmp.compare_eq_iff_eq
    · decide
    · decide
    · decide
    · exact text_cmp_linear.eq_iff trivial trivial
    · decide
    · decide
    · decide
    · exact linear.eq_iff aHolds bHolds
  swap {a b} aHolds bHolds := by
    cases a <;> cases b <;> simp only [cmp, kind]
    · exact Std.OrientedCmp.eq_swap
    · decide
    · decide
    · decide
    · exact text_cmp_linear.swap trivial trivial
    · decide
    · decide
    · decide
    · exact linear.swap aHolds bHolds
  trans {a b c} aHolds bHolds cHolds := by
    cases a <;> cases b <;> cases c <;> simp only [cmp, kind]
    case num.num.num => exact Std.TransCmp.lt_trans
    case text.text.text => exact text_cmp_linear.trans trivial trivial trivial
    case child.child.child => exact linear.trans aHolds bHolds cHolds
    all_goals
      intro first second
      first
        | rfl
        | exact absurd first (by decide)
        | exact absurd second (by decide)

/-- Letters with the same image compare alike if their handles do. -/
theorem cmp_congr {γ : Type*} {ord : α → α → Ordering} {other : β → β → Ordering} {f : α → γ}
    {g : β → γ} {x y : Field α} {x' y' : Field β} (sameX : x.map f = x'.map g)
    (sameY : y.map f = y'.map g)
    (agree : ∀ a b a' b', x = child a → y = child b → x' = child a' → y' = child b' →
      f a = g a' → f b = g b' → ord a b = other a' b') :
    cmp ord x y = cmp other x' y' := by
  cases x <;> cases x' <;> simp only [map, reduceCtorEq] at sameX <;>
    cases y <;> cases y' <;> simp only [map, reduceCtorEq] at sameY
  case child.child.child.child a a' b b' =>
    exact agree a b a' b' rfl rfl rfl rfl (child.inj sameX) (child.inj sameY)
  all_goals simp_all [cmp, kind]

end Field

/-! ## Codes -/

section Codes

variable {α : Type u} {β : Type v}

/-- Scalars have codes of one length. -/
def Scalar.code : Scalar → List (Field α)
  | nil => [.num 0, .num 0, .text []]
  | bool value => [.num 1, .num value.toNat, .text []]
  | int value => [.num 2, .num value.toInt, .text []]
  | float bits => [.num 3, .num bits.toNat, .text []]
  | str value => [.num 4, .num 0, .text value]
  | sym name => [.num 5, .num 0, .text name]
  | bigInt spelling => [.num 6, .num 0, .text spelling]

/-- Shape keys have codes of one length. -/
def ShapeKey.code : ShapeKey → List (Field α)
  | sym name => [.num 0, .num 0, .text name]
  | str value => [.num 1, .num 0, .text value]
  | int value => [.num 2, .num value.toInt, .text []]
  | float bits => [.num 3, .num bits.toNat, .text []]
  | bool value => [.num 4, .num value.toNat, .text []]
  | nil => [.num 5, .num 0, .text []]
  | other => [.num 6, .num 0, .text []]

def boundCode : Option Int64 → List (Field α)
  | none => [.num 0, .num 0]
  | some value => [.num 1, .num value.toInt]

def ShapeMember.code (member : ShapeMember α) : List (Field α) :=
  member.key.code ++ [.num member.optional.toNat, .child member.value]

def namedCode (member : Text × α) : List (Field α) :=
  [.text member.1, .child member.2]

/-- The code of a carrier after its tag. -/
def Carrier.payload : Carrier α → List (Field α)
  | dynamic facet => [.child facet]
  | nominal classId args => .num classId :: args.map .child
  | singleton classId => [.num classId]
  | constant scalar => scalar.code
  | tuple elements => elements.map .child
  | hashShape members => .num members.length :: members.flatMap ShapeMember.code
  | integerRange min max => boundCode min ++ boundCode max
  | refined base refinement => [.child base, .num refinement]
  | difference base removed => [.child base, .child removed]
  | intersection members => members.map .child
  | complement negated => [.child negated]
  | app uri args => .text uri :: args.map .child
  | dataInstance classId members =>
      .num classId :: .num members.length :: members.flatMap namedCode
  | union members => members.map .child
  | _ => []

def Carrier.code (carrier : Carrier α) : List (Field α) :=
  .num carrier.tag :: carrier.payload

end Codes

/-! ## Comparison through the code -/

section Comparison

variable {α : Type u} {β : Type v}

@[simp]
theorem compare_toInt (a b : Int64) : compare a.toInt b.toInt = compare a b := by
  simp only [compare, compareOfLessAndEq, Int64.toInt_inj, Int64.lt_iff_toInt_lt]

@[simp]
theorem compare_natCast (a b : Nat) : compare (a : Int) b = compare a b := by
  simp only [compare, compareOfLessAndEq, Int.ofNat_lt, Int.ofNat_inj]

@[simp]
theorem compare_toNat (a b : UInt64) : compare a.toNat b.toNat = compare a b := by
  simp only [compare, compareOfLessAndEq, UInt64.lt_iff_toNat_lt, UInt64.toNat_inj]

@[simp]
theorem compare_bool_toNat (a b : Bool) : compare a.toNat b.toNat = compare a b := by
  cases a <;> cases b <;> decide

@[simp]
theorem text_cmp_self (a : Text) : a.cmp a = .eq :=
  Field.text_cmp_linear.self trivial

@[simp]
theorem thenWith_some (first next : Ordering) :
    thenWith (some first) (some next) = some (first.then next) := by
  cases first <;> rfl

theorem thenWith_eq (next : Option Ordering) : thenWith (some .eq) next = next :=
  rfl

/-- Different numbers decide whatever follows. -/
theorem thenWith_decided {m n : Nat} (differ : m ≠ n) (next : Option Ordering)
    (after : Ordering) :
    thenWith (some (compare m n)) next = some ((compare m n).then after) := by
  cases order : compare m n with
  | lt => rfl
  | eq => exact absurd (Nat.compare_eq_eq.mp order) differ
  | gt => rfl

variable {ord : α → α → Ordering}

theorem Scalar.cmp_eq (ord : α → α → Ordering) (a b : Scalar) :
    a.cmp b = List.compareLex (Field.cmp ord) a.code b.code := by
  cases a <;> cases b
  case nil.nil => rfl
  case bool.bool | int.int | float.float | str.str | sym.sym | bigInt.bigInt =>
    unfold cmp
    simp [code, Field.cmp, List.compareLex_cons_cons, List.compareLex_nil_nil]
  all_goals rfl

theorem ShapeKey.cmp_eq (ord : α → α → Ordering) (a b : ShapeKey) :
    a.cmp b = List.compareLex (Field.cmp ord) a.code b.code := by
  cases a <;> cases b
  case nil.nil | other.other => rfl
  case bool.bool | int.int | float.float | str.str | sym.sym =>
    simp [cmp, code, Field.cmp, List.compareLex_cons_cons, List.compareLex_nil_nil]
  all_goals rfl

theorem compare_bound (ord : α → α → Ordering) (a b : Option Int64) :
    compare a b = List.compareLex (Field.cmp ord) (boundCode a) (boundCode b) := by
  cases a with
  | none => cases b <;> rfl
  | some a =>
      cases b with
      | none => rfl
      | some b =>
          simp [boundCode, Field.cmp, List.compareLex_cons_cons, List.compareLex_nil_nil]
          rfl

theorem length_boundCode (a : Option Int64) : (boundCode (α := α) a).length = 2 := by
  cases a <;> rfl

theorem ShapeKey.length_code (key : ShapeKey) : (key.code (α := α)).length = 3 := by
  cases key <;> rfl

theorem ShapeMember.length_code_eq (x y : ShapeMember α) : x.code.length = y.code.length := by
  simp [code, ShapeKey.length_code]

theorem length_namedCode_eq (x y : Text × α) :
    (namedCode x).length = (namedCode y).length :=
  rfl

/-- Loops over items whose codes have one length. -/
theorem firstDifference_eq {cmp : β → β → Option Ordering} {code : β → List (Field α)}
    {xs ys : List β} (sameLength : xs.length = ys.length)
    (uniform : ∀ x y, (code x).length = (code y).length)
    (agrees : ∀ x ∈ xs, ∀ y ∈ ys,
      cmp x y = some (List.compareLex (Field.cmp ord) (code x) (code y))) :
    firstDifference cmp (xs.zip ys) =
      some (List.compareLex (Field.cmp ord) (xs.flatMap code) (ys.flatMap code)) := by
  induction xs generalizing ys with
  | nil =>
      obtain rfl := List.eq_nil_of_length_eq_zero sameLength.symm
      rfl
  | cons x xs ih =>
      cases ys with
      | nil => simp at sameLength
      | cons y ys =>
          have rest := ih (by simpa using sameLength) fun x' x'Mem y' y'Mem =>
            agrees x' (List.mem_cons_of_mem _ x'Mem) y' (List.mem_cons_of_mem _ y'Mem)
          rw [List.zip_cons_cons, firstDifference, rest,
            agrees x List.mem_cons_self y List.mem_cons_self, thenWith_some, List.flatMap_cons,
            List.flatMap_cons, compareLex_append (uniform x y)]

theorem cmpSlice_eq {cmp : α → α → Option Ordering} {xs ys : List α}
    (agrees : ∀ x ∈ xs, ∀ y ∈ ys, cmp x y = some (ord x y)) :
    cmpSlice cmp xs ys =
      some (List.compareLex (Field.cmp ord) (xs.map .child) (ys.map .child)) := by
  unfold cmpSlice
  induction xs generalizing ys with
  | nil => cases ys <;> rfl
  | cons x xs ih =>
      cases ys with
      | nil => rfl
      | cons y ys =>
          have rest := ih fun x' x'Mem y' y'Mem =>
            agrees x' (List.mem_cons_of_mem _ x'Mem) y' (List.mem_cons_of_mem _ y'Mem)
          have lengths : compare (xs.length + 1) (ys.length + 1) =
              compare xs.length ys.length := by
            simp [compare, compareOfLessAndEq]
          rw [List.zip_cons_cons, firstDifference,
            agrees x List.mem_cons_self y List.mem_cons_self, List.map_cons, List.map_cons,
            List.compareLex_cons_cons, List.length_cons, List.length_cons, lengths]
          cases order : ord x y <;>
            simp [thenWith, Field.cmp, order, ← rest]

theorem ShapeMember.compareWith_eq {cmp : α → α → Option Ordering} {x y : ShapeMember α}
    (agrees : cmp x.value y.value = some (ord x.value y.value)) :
    ShapeMember.compareWith cmp x y =
      some (List.compareLex (Field.cmp ord) x.code y.code) := by
  rw [ShapeMember.compareWith, agrees, thenWith_some, thenWith_some, code, code,
    compareLex_append (by rw [ShapeKey.length_code, ShapeKey.length_code]), ← ShapeKey.cmp_eq]
  simp [Field.cmp, List.compareLex_cons_cons, List.compareLex_nil_nil]

theorem compareNamed_eq {cmp : α → α → Option Ordering} {x y : Text × α}
    (agrees : cmp x.2 y.2 = some (ord x.2 y.2)) :
    compareNamed cmp x y =
      some (List.compareLex (Field.cmp ord) (namedCode x) (namedCode y)) := by
  rw [compareNamed, agrees, thenWith_some]
  simp [namedCode, Field.cmp, List.compareLex_cons_cons, List.compareLex_nil_nil]

/-- `compareWith` is lexicographic comparison of codes. -/
theorem Carrier.compareWith_eq {cmp : α → α → Option Ordering} {a b : Carrier α}
    (agrees : ∀ x ∈ a.children, ∀ y ∈ b.children, cmp x y = some (ord x y)) :
    a.compareWith cmp b = some (List.compareLex (Field.cmp ord) a.code b.code) := by
  rw [code, code, List.compareLex_cons_cons, Field.cmp, compare_natCast]
  unfold Carrier.compareWith
  by_cases sameTag : a.tag = b.tag
  · rw [Nat.compare_eq_eq.mpr sameTag, Ordering.eq_then, thenWith_eq]
    cases a <;> cases b <;> try exact absurd sameTag (Nat.ne_of_beq_eq_false rfl)
    case top.top | bottom.bottom | void.void | selfType.selfType | instanceType.instanceType |
      classType.classType => rfl
    case constant.constant x y => simp [payload, Scalar.cmp_eq ord]
    case integerRange.integerRange amin amax bmin bmax =>
      simp only [payload]
      rw [compareLex_append (by rw [length_boundCode, length_boundCode]), ← compare_bound,
        ← compare_bound]
    case nominal.nominal ac aargs bc bargs =>
      have slices : cmpSlice cmp aargs bargs =
          some (List.compareLex (Field.cmp ord) (aargs.map .child) (bargs.map .child)) :=
        cmpSlice_eq agrees
      simp [slices, payload, List.compareLex_cons_cons, Field.cmp]
    case singleton.singleton ac bc =>
      simp [payload, List.compareLex_cons_cons, List.compareLex_nil_nil, Field.cmp]
    case tuple.tuple x y | intersection.intersection x y | union.union x y =>
      exact cmpSlice_eq agrees
    case hashShape.hashShape x y =>
      simp only [payload, List.compareLex_cons_cons, Field.cmp, compare_natCast]
      by_cases sameLength : x.length = y.length
      · rw [firstDifference_eq sameLength ShapeMember.length_code_eq, thenWith_some]
        intro m mMem n nMem
        exact ShapeMember.compareWith_eq (agrees m.value (List.mem_map_of_mem mMem) n.value
          (List.mem_map_of_mem nMem))
      · exact thenWith_decided sameLength _ _
    case dataInstance.dataInstance ac am bc bm =>
      simp only [payload, List.compareLex_cons_cons, Field.cmp, compare_natCast]
      by_cases sameLength : am.length = bm.length
      · rw [firstDifference_eq sameLength length_namedCode_eq, thenWith_some, thenWith_some]
        intro m mMem n nMem
        exact compareNamed_eq (agrees m.2 (List.mem_map_of_mem mMem) n.2
          (List.mem_map_of_mem nMem))
      · rw [thenWith_decided sameLength _ _, thenWith_some]
    case refined.refined ab ar bb br =>
      simp [agrees ab (by simp [children]) bb (by simp [children]), payload,
        List.compareLex_cons_cons, List.compareLex_nil_nil, Field.cmp]
    case app.app au aa bu ba =>
      have slices : cmpSlice cmp aa ba =
          some (List.compareLex (Field.cmp ord) (aa.map .child) (ba.map .child)) :=
        cmpSlice_eq agrees
      simp [slices, payload, List.compareLex_cons_cons, Field.cmp]
    case difference.difference ab ar bb br =>
      simp [agrees ab (by simp [children]) bb (by simp [children]),
        agrees ar (by simp [children]) br (by simp [children]), payload,
        List.compareLex_cons_cons, List.compareLex_nil_nil, Field.cmp]
    case complement.complement x y | dynamic.dynamic x y =>
      simp [agrees x (by simp [children]) y (by simp [children]), payload,
        List.compareLex_cons_cons, List.compareLex_nil_nil, Field.cmp]
  · exact thenWith_decided sameTag _ _

end Comparison

/-! ## The code determines the carrier -/

section Injective

variable {α : Type u} {β : Type v}

theorem Scalar.code_injective {a b : Scalar} (same : a.code (α := α) = b.code) : a = b := by
  cases a <;> cases b <;> simp_all [code, Int64.toInt_inj, Int.natCast_inj, UInt64.toNat_inj]
  case bool.bool a b => cases a <;> cases b <;> simp_all

theorem ShapeKey.code_injective {a b : ShapeKey} (same : a.code (α := α) = b.code) : a = b := by
  cases a <;> cases b <;> simp_all [code, Int64.toInt_inj, Int.natCast_inj, UInt64.toNat_inj]
  case bool.bool a b => cases a <;> cases b <;> simp_all

theorem boundCode_injective {a b : Option Int64} (same : boundCode (α := α) a = boundCode b) :
    a = b := by
  cases a <;> cases b <;> simp_all [boundCode, Int64.toInt_inj]

theorem child_injective : Function.Injective (Field.child : α → Field α) :=
  fun _ _ same => Field.child.inj same

theorem ShapeMember.code_injective : Function.Injective (ShapeMember.code : ShapeMember α → _) := by
  intro x y same
  obtain ⟨keyCode, rest⟩ :=
    List.append_inj same (by rw [ShapeKey.length_code, ShapeKey.length_code])
  have sameKey := ShapeKey.code_injective keyCode
  rcases x with ⟨xKey, xValue, xOptional⟩
  rcases y with ⟨yKey, yValue, yOptional⟩
  cases xOptional <;> cases yOptional <;> simp_all

theorem namedCode_injective : Function.Injective (namedCode : Text × α → _) := by
  intro x y same
  simpa [namedCode, Prod.ext_iff] using same

/-- Items whose codes have one length are read back from the joined code. -/
theorem flatMap_injective {code : β → List (Field α)} (injective : Function.Injective code)
    (uniform : ∀ x y, (code x).length = (code y).length) {xs ys : List β}
    (sameLength : xs.length = ys.length) (same : xs.flatMap code = ys.flatMap code) :
    xs = ys := by
  induction xs generalizing ys with
  | nil => exact (List.eq_nil_of_length_eq_zero sameLength.symm).symm
  | cons x xs ih =>
      cases ys with
      | nil => simp at sameLength
      | cons y ys =>
          rw [List.flatMap_cons, List.flatMap_cons] at same
          obtain ⟨head, rest⟩ := List.append_inj same (uniform x y)
          rw [injective head, ih (by simpa using sameLength) rest]

theorem Carrier.code_injective : Function.Injective (Carrier.code : Carrier α → _) := by
  intro a b same
  simp only [code, List.cons.injEq, Field.num.injEq, Int.natCast_inj] at same
  obtain ⟨sameTag, same⟩ := same
  have children := List.map_injective_iff.mpr (child_injective (α := α))
  cases a <;> cases b <;> try exact absurd sameTag (Nat.ne_of_beq_eq_false rfl)
  case top.top | bottom.bottom | void.void | selfType.selfType | instanceType.instanceType |
    classType.classType => rfl
  case constant.constant x y => rw [Scalar.code_injective same]
  case integerRange.integerRange amin amax bmin bmax =>
    obtain ⟨sameMin, sameMax⟩ :=
      List.append_inj same (by rw [length_boundCode, length_boundCode])
    rw [boundCode_injective sameMin, boundCode_injective sameMax]
  case hashShape.hashShape x y =>
    simp only [payload, List.cons.injEq, Field.num.injEq, Int.natCast_inj] at same
    rw [flatMap_injective ShapeMember.code_injective ShapeMember.length_code_eq same.1 same.2]
  case dataInstance.dataInstance ac am bc bm =>
    simp only [payload, List.cons.injEq, Field.num.injEq, Int.natCast_inj] at same
    rw [same.1, flatMap_injective namedCode_injective length_namedCode_eq same.2.1 same.2.2]
  case tuple.tuple | intersection.intersection | union.union => rw [children same]
  case nominal.nominal | app.app =>
    simp only [payload, List.cons.injEq, Field.num.injEq, Field.text.injEq,
      Int.natCast_inj] at same
    rw [same.1, children same.2]
  all_goals simp_all [payload, Int.natCast_inj]

end Injective

/-! ## Codes and children -/

section Children

variable {α : Type u} {β : Type v}

theorem Carrier.code_map (f : α → β) (carrier : Carrier α) :
    (carrier.map f).code = carrier.code.map (Field.map f) := by
  have scalars (s : Scalar) : s.code.map (Field.map f) = s.code := by cases s <;> rfl
  have keys (k : ShapeKey) : k.code.map (Field.map f) = k.code := by cases k <;> rfl
  have bounds (b : Option Int64) : (boundCode b).map (Field.map f) = boundCode b := by
    cases b <;> rfl
  cases carrier <;>
    simp [map, code, tag, payload, Field.map, scalars, bounds, keys, ShapeMember.code, namedCode,
      List.map_flatMap, List.flatMap_map, Function.comp_def]

/-- The handles in a code are the children of the carrier. -/
theorem Carrier.child_mem_code {carrier : Carrier α} {handle : α} :
    .child handle ∈ carrier.code ↔ handle ∈ carrier.children := by
  have scalars (s : Scalar) : .child handle ∉ s.code := by cases s <;> simp [Scalar.code]
  have keys (k : ShapeKey) : .child handle ∉ k.code := by cases k <;> simp [ShapeKey.code]
  have bounds (b : Option Int64) : .child handle ∉ boundCode b := by
    cases b <;> simp [boundCode]
  cases carrier <;>
    simp [code, payload, children, scalars, bounds, keys, ShapeMember.code, namedCode, eq_comm]

theorem Carrier.map_congr {f g : α → β} {carrier : Carrier α}
    (same : ∀ handle ∈ carrier.children, f handle = g handle) :
    carrier.map f = carrier.map g := by
  apply code_injective
  rw [code_map, code_map]
  apply List.map_congr_left
  intro field fieldMem
  cases field with
  | child handle => exact congrArg Field.child (same handle (child_mem_code.mp fieldMem))
  | num => rfl
  | text => rfl

theorem Carrier.holds_code {P : α → Prop} {carrier : Carrier α}
    (childrenHold : ∀ handle ∈ carrier.children, P handle) :
    ∀ field ∈ carrier.code, Field.Holds P field := by
  intro field fieldMem
  cases field with
  | child handle => exact childrenHold handle (child_mem_code.mp fieldMem)
  | num => trivial
  | text => trivial

end Children

end Rigor.Types
