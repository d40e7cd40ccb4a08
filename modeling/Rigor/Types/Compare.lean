import Rigor.Types.Code
import Rigor.Types.Interner

/-!
# The order on handles

`Interner::cmp` recurses from a carrier to its children, whose handles are
smaller than the position of the carrier; so it answers with any fuel above the
left handle, compares codes, and is a linear order on the handles in range.
The comparison is determined by the trees that the handles resolve to.
-/

namespace Rigor.Types

open Rigor.Library.Order

namespace Interner

variable {i j : Interner}

/-- The handle is in range of the arena. -/
def InRange (i : Interner) (id : TypeId) : Prop :=
  id.index < i.arena.length

/-- The answer of `cmp`. -/
def order (i : Interner) (a b : TypeId) : Ordering :=
  (i.cmp (a.index + 1) a b).getD .eq

/-- The code of the carrier of a handle. -/
def codeOf (i : Interner) (a : TypeId) : List (Field TypeId) :=
  ((i.get a).getD .top).code

theorem codeOf_eq {a : TypeId} {ty : Ty} (found : i.get a = some ty) : i.codeOf a = ty.code := by
  rw [codeOf, found]
  rfl

namespace HashConsed

theorem child_inRange (hashed : i.HashConsed) {a child : TypeId} {ty : Ty}
    (found : i.get a = some ty) (childMem : child ∈ ty.children) :
    child.index < a.index ∧ i.InRange child := by
  have below := hashed.child_lt a.index ty found child childMem
  exact ⟨below, Nat.lt_trans below (get_eq_some_lt found)⟩

/-- `cmp` answers with any fuel above the left handle, and compares codes. -/
theorem cmp_eq (hashed : i.HashConsed) {a b : TypeId} (aInRange : i.InRange a)
    (bInRange : i.InRange b) {fuel : Nat} (enough : a.index < fuel) :
    i.cmp fuel a b = some (i.order a b) ∧
      (a ≠ b → i.order a b = List.compareLex (Field.cmp i.order) (i.codeOf a) (i.codeOf b)) := by
  obtain ⟨n, bound⟩ : ∃ n, a.index < n := ⟨a.index + 1, Nat.lt_succ_self _⟩
  induction n generalizing a b fuel with
  | zero => exact absurd bound (Nat.not_lt_zero _)
  | succ n ih =>
      have unfolded (m : Nat) (above : a.index ≤ m) (different : a ≠ b) :
          i.cmp (m + 1) a b =
            some (List.compareLex (Field.cmp i.order) (i.codeOf a) (i.codeOf b)) := by
        obtain ⟨ta, taFound⟩ := exists_get aInRange
        obtain ⟨tb, tbFound⟩ := exists_get bInRange
        rw [cmp, if_neg different, taFound, tbFound, codeOf_eq taFound, codeOf_eq tbFound]
        apply Carrier.compareWith_eq
        intro x xMem y yMem
        have xChild := hashed.child_inRange taFound xMem
        have yChild := hashed.child_inRange tbFound yMem
        exact (ih xChild.2 yChild.2 (by omega) (by omega)).1
      obtain ⟨m, rfl⟩ : ∃ m, fuel = m + 1 := ⟨fuel - 1, by omega⟩
      by_cases same : a = b
      · refine ⟨?_, fun different => absurd same different⟩
        simp [order, cmp, same]
      · have answer : i.order a b =
            List.compareLex (Field.cmp i.order) (i.codeOf a) (i.codeOf b) := by
          rw [order, unfolded a.index (Nat.le_refl _) same]
          rfl
        exact ⟨by rw [unfolded m (by omega) same, answer], fun _ => answer⟩

/-- The order on handles below a bound follows from the order on their children. -/
theorem order_linear_below (hashed : i.HashConsed) (n : Nat) :
    LinearOn (fun a => a.index < n ∧ i.InRange a) i.order := by
  induction n with
  | zero => exact ⟨fun aHolds => absurd aHolds.1 (Nat.not_lt_zero _),
      fun aHolds => absurd aHolds.1 (Nat.not_lt_zero _),
      fun aHolds => absurd aHolds.1 (Nat.not_lt_zero _)⟩
  | succ n ih =>
      have codes : LinearOn (fun a => a.index < n + 1 ∧ i.InRange a)
          fun a b => List.compareLex (Field.cmp i.order) (i.codeOf a) (i.codeOf b) := by
        apply (Field.cmp_linear ih).lex.comap
        · intro a aHolds
          obtain ⟨ty, found⟩ := exists_get aHolds.2
          rw [codeOf_eq found]
          apply Carrier.holds_code
          intro child childMem
          have below := hashed.child_inRange found childMem
          exact ⟨Nat.lt_of_lt_of_le below.1 (Nat.le_of_lt_succ aHolds.1), below.2⟩
        · intro a b aHolds bHolds same
          obtain ⟨ta, taFound⟩ := exists_get aHolds.2
          obtain ⟨tb, tbFound⟩ := exists_get bHolds.2
          rw [codeOf_eq taFound, codeOf_eq tbFound] at same
          obtain rfl := Carrier.code_injective same
          exact hashed.get_injective taFound tbFound
      apply codes.congr
      intro a b aHolds bHolds
      by_cases same : a = b
      · subst same
        rw [codes.self aHolds]
        simp [order, cmp]
      · exact (hashed.cmp_eq aHolds.2 bHolds.2 (Nat.lt_succ_self _)).2 same

theorem order_linear (hashed : i.HashConsed) : LinearOn i.InRange i.order :=
  (hashed.order_linear_below i.arena.length).mono fun _ inRange => ⟨inRange, inRange⟩

theorem order_eq (hashed : i.HashConsed) {a b : TypeId} (aInRange : i.InRange a)
    (bInRange : i.InRange b) :
    i.order a b = List.compareLex (Field.cmp i.order) (i.codeOf a) (i.codeOf b) := by
  by_cases same : a = b
  · subst same
    have holds : ∀ field ∈ i.codeOf a, Field.Holds i.InRange field := by
      obtain ⟨ty, found⟩ := exists_get aInRange
      rw [codeOf_eq found]
      exact Carrier.holds_code fun child childMem => (hashed.child_inRange found childMem).2
    rw [hashed.order_linear.self aInRange,
      (Field.cmp_linear hashed.order_linear).lex.self holds]
  · exact (hashed.cmp_eq aInRange bInRange (Nat.lt_succ_self _)).2 same

end HashConsed

end Interner

/-! ## Resolved structure -/

/-- A carrier with its children resolved, all the way down. -/
inductive Tree where
  | unresolved
  | node (carrier : Carrier Tree)

namespace Interner

variable {i j : Interner}

def resolveFuel (i : Interner) : Nat → TypeId → Tree
  | 0, _ => .unresolved
  | fuel + 1, id =>
      match i.get id with
      | some ty => .node (ty.map (i.resolveFuel fuel))
      | none => .unresolved

/-- The tree of a handle; children lie below the handle. -/
def resolve (i : Interner) (id : TypeId) : Tree :=
  i.resolveFuel (id.index + 1) id

theorem HashConsed.resolveFuel_eq (hashed : i.HashConsed) {id : TypeId} {ty : Ty}
    (found : i.get id = some ty) {fuel : Nat} (enough : id.index < fuel) :
    i.resolveFuel fuel id = .node (ty.map i.resolve) := by
  obtain ⟨n, bound⟩ : ∃ n, id.index < n := ⟨id.index + 1, Nat.lt_succ_self _⟩
  induction n generalizing id ty fuel with
  | zero => exact absurd bound (Nat.not_lt_zero _)
  | succ n ih =>
      obtain ⟨m, rfl⟩ : ∃ m, fuel = m + 1 := ⟨fuel - 1, by omega⟩
      rw [resolveFuel, found]
      apply congrArg Tree.node
      apply Carrier.map_congr
      intro child childMem
      have below := hashed.child_inRange found childMem
      obtain ⟨childTy, childFound⟩ := exists_get below.2
      rw [resolve, ih childFound (by omega) (by omega),
        ih childFound (Nat.lt_succ_self _) (by omega)]

theorem HashConsed.resolve_eq (hashed : i.HashConsed) {id : TypeId} {ty : Ty}
    (found : i.get id = some ty) : i.resolve id = .node (ty.map i.resolve) :=
  hashed.resolveFuel_eq found (Nat.lt_succ_self _)

/-- Handles of one tree compare alike in any two interners. -/
theorem HashConsed.order_congr (iHashed : i.HashConsed) (jHashed : j.HashConsed)
    {a b a' b' : TypeId} (aInRange : i.InRange a) (bInRange : i.InRange b)
    (aInRange' : j.InRange a') (bInRange' : j.InRange b')
    (sameA : i.resolve a = j.resolve a') (sameB : i.resolve b = j.resolve b') :
    i.order a b = j.order a' b' := by
  obtain ⟨n, bound⟩ : ∃ n, a.index < n := ⟨a.index + 1, Nat.lt_succ_self _⟩
  induction n generalizing a b a' b' with
  | zero => exact absurd bound (Nat.not_lt_zero _)
  | succ n ih =>
      obtain ⟨ta, taFound⟩ := exists_get aInRange
      obtain ⟨tb, tbFound⟩ := exists_get bInRange
      obtain ⟨ta', taFound'⟩ := exists_get aInRange'
      obtain ⟨tb', tbFound'⟩ := exists_get bInRange'
      rw [iHashed.order_eq aInRange bInRange, jHashed.order_eq aInRange' bInRange',
        codeOf_eq taFound, codeOf_eq tbFound, codeOf_eq taFound', codeOf_eq tbFound']
      rw [iHashed.resolve_eq taFound, jHashed.resolve_eq taFound', Tree.node.injEq] at sameA
      rw [iHashed.resolve_eq tbFound, jHashed.resolve_eq tbFound', Tree.node.injEq] at sameB
      apply compareLex_congr (Field.map i.resolve) (Field.map j.resolve)
      · rw [← Carrier.code_map, ← Carrier.code_map, sameA]
      · rw [← Carrier.code_map, ← Carrier.code_map, sameB]
      · intro x xMem y yMem x' xMem' y' yMem' sameX sameY
        apply Field.cmp_congr sameX sameY
        rintro c d c' d' rfl rfl rfl rfl sameC sameD
        rw [Carrier.child_mem_code] at xMem yMem xMem' yMem'
        have below := iHashed.child_inRange taFound xMem
        exact ih below.2 (iHashed.child_inRange tbFound yMem).2
          (jHashed.child_inRange taFound' xMem').2 (jHashed.child_inRange tbFound' yMem').2
          sameC sameD (by omega)

end Interner

end Rigor.Types
