import Rigor.Types.Faithful
import Rigor.Types.Normalize

/-!
# The laws of `normalize`

`normalize` returns, what it returns is canonical through every union,
intersection and `Dynamic` layer, and it returns a canonical type unchanged
without interning anything.
-/

namespace Rigor.Types

open Rigor.Library.Fuel Rigor.Library.Order

namespace Interner

variable {i j : Interner} {side : Side}

/-- `Interner::cmp` answers that `a` comes before `b`. -/
def Before (i : Interner) (a b : TypeId) : Prop :=
  Returns (fun fuel => i.cmp fuel a b) .lt

/-- Neither the type that the flattening drops, nor the one that absorbs, nor a
combination of the same side. -/
def Kept (side : Side) (i : Interner) (id : TypeId) : Prop :=
  ∃ ty, i.get id = some ty ∧ ty ≠ side.neutral ∧ ty ≠ side.absorbing ∧
    ∀ members, ty ≠ side.build members

/-- Canonical through every union, intersection and `Dynamic` layer. -/
inductive Layered (i : Interner) : TypeId → Prop
  | combined {side : Side} {id : TypeId} {members : List TypeId}
      (found : i.get id = some (side.build members)) (several : 2 ≤ members.length)
      (increasing : members.Pairwise i.Before) (kept : ∀ m ∈ members, Kept side i m)
      (each : ∀ m ∈ members, Layered i m) : Layered i id
  | dynamic {id facet : TypeId} (found : i.get id = some (.dynamic facet))
      (inner : Layered i facet) : Layered i id
  | leaf {id : TypeId} {ty : Ty} (found : i.get id = some ty) (leaf : ty.Leaf) : Layered i id

theorem HashConsed.before_iff (hashed : i.HashConsed) {a b : TypeId} (aInRange : i.InRange a)
    (bInRange : i.InRange b) : i.Before a b ↔ i.order a b = .lt := by
  have answers : Returns (fun fuel => i.cmp fuel a b) (i.order a b) :=
    ⟨a.index, fun fuel enough => (hashed.cmp_eq aInRange bInRange enough).1⟩
  constructor
  · intro before
    exact answers.unique before
  · intro below
    rwa [below] at answers

/-- A combination with at least two members was not collapsed. -/
theorem Canonical.two_le_length {id : TypeId} {members : List TypeId}
    (canonical : Canonical side i id members) (found : i.get id = some (side.build members)) :
    2 ≤ members.length := by
  have isCombined := canonical.isCombined
  match members with
  | [] =>
      have neutral : i.get id = some side.neutral := isCombined
      exact absurd (Option.some.inj (found.symm.trans neutral)) (side.build_ne_neutral [])
  | [m] =>
      obtain rfl : id = m := isCombined
      obtain ⟨ty, mFound, pushed, -⟩ := canonical.pushed id List.mem_cons_self
      exact absurd (Option.some.inj (mFound.symm.trans found)) (pushed.2 _)
  | first :: second :: rest => exact Nat.le_add_left 2 rest.length

/-- The handle that `normalize` answers is canonical in every layer. -/
theorem Normal.layered {id : TypeId} (normal : Normal i id) (hashed : i.HashConsed) :
    Layered i id := by
  induction normal with
  | leaf found leaf => exact .leaf found leaf
  | dynamic found _ ih => exact .dynamic found ih
  | combined found canonical _ ih =>
      refine .combined found (canonical.two_le_length found) ?_ ?_ ih
      · refine List.Pairwise.imp_of_mem ?_ canonical.increasing
        intro a b aMem bMem below
        exact (hashed.before_iff (canonical.inRange a aMem) (canonical.inRange b bMem)).mpr below
      · intro m mem
        obtain ⟨ty, mFound, pushed, kept⟩ := canonical.pushed m mem
        exact ⟨ty, mFound, pushed.1, kept, pushed.2⟩

/-! ## Canonical types are fixed -/

/-- Interning a carrier that a handle already has changes nothing. -/
theorem HashConsed.intern_eq_self (hashed : i.HashConsed) (fits : i.Fits) {id : TypeId} {ty : Ty}
    (found : i.get id = some ty) : i.intern ty = (id, i) := by
  rcases hashed.intern_cases ty with ⟨k, kFound, same⟩ | ⟨fresh, -⟩
  · have small : k < capacity :=
      Nat.lt_of_lt_of_le (List.getElem?_eq_some_iff.mp kFound).1 fits
    rw [same, Nat.mod_eq_of_lt small, Prod.mk.injEq]
    exact ⟨hashed.get_injective kFound found, rfl⟩
  · exact absurd (List.mem_of_getElem? found) fresh

theorem leaf_constant (scalar : Scalar) : (.constant scalar : Ty).Leaf := by
  constructor
  · simp
  · intro side members
    cases side <;> simp

/-- `normalize` returns a leaf as it is. -/
theorem normalize_leaf {id : TypeId} {ty : Ty} (found : i.get id = some ty) (leaf : ty.Leaf) :
    Returns (fun fuel => normalize fuel i id) (id, i) := by
  apply Returns.of_const
  intro fuel
  rw [normalize, found]
  cases ty with
  | union members => exact absurd rfl (leaf.2 .union members)
  | intersection members => exact absurd rfl (leaf.2 .intersection members)
  | dynamic facet => exact absurd rfl (leaf.1 facet)
  | _ => rfl

/-- The member loop over members that are fixed collects exactly them. -/
theorem normalizeMembers_fixed {members : List TypeId}
    (each : ∀ m ∈ members, Returns (fun fuel => normalize fuel i m) (m, i))
    (pushed : ∀ m ∈ members, ∃ ty, i.get m = some ty ∧ side.Pushed ty) (out : List TypeId) :
    Returns (fun fuel => normalizeMembers (normalize fuel)
      (fun i => i.collectMembers side fuel) i members out) (out ++ members, i) := by
  induction members generalizing out with
  | nil => exact .of_const fun fuel => by simp [normalizeMembers]
  | cons m rest ih =>
      rw [List.forall_mem_cons] at each pushed
      obtain ⟨ty, found, isPushed⟩ := pushed.1
      have noParts : side.parts ty = none := by
        rcases side.kinds ty with neutral | ⟨members, combined⟩ | ⟨-, noParts⟩
        · exact absurd neutral isPushed.1
        · exact absurd combined (isPushed.2 members)
        · exact noParts
      have collects : Returns (fun fuel => i.collectMembers side fuel m out) (out ++ [m]) := by
        apply Returns.of_const
        intro fuel
        rw [collectMembers, found, Option.bind_some, if_neg isPushed.1, noParts]
      have others := ih each.2 pushed.2 (out ++ [m])
      rw [List.append_assoc, List.singleton_append] at others
      exact each.1.bind (collects.bind others)

/-- The members of a canonical combination are combined to its handle. -/
theorem Canonical.makeCombined (hashed : i.HashConsed) (fits : i.Fits) {id : TypeId}
    {members : List TypeId} (canonical : Canonical side i id members)
    (found : i.get id = some (side.build members)) :
    Returns (fun fuel => makeCombined side fuel i members) (id, i) := by
  have issued : ∀ m ∈ members, i.Issued m := by
    intro m mem
    have inRange := canonical.inRange m mem
    exact hashed.issued_iff.mpr ⟨inRange, Nat.lt_of_lt_of_le inRange fits⟩
  obtain ⟨r, j, answers, combines⟩ := makeCombined_spec side hashed issued
  have returns : Returns (fun fuel => Interner.makeCombined side fuel i members) (r, j) :=
    ⟨i.arena.length, fun fuel enough => answers fuel fun m mem =>
      Nat.lt_trans (canonical.inRange m mem) enough⟩
  suffices same : (r, j) = (id, i) by rwa [same] at returns
  cases combines with
  | @absorbed m mem absorbed =>
      obtain ⟨ty, mFound, -, kept⟩ := canonical.pushed m mem
      exact absurd (Option.some.inj (mFound.symm.trans absorbed)) kept
  | @sorted ids _ increasing mem_iff =>
      obtain rfl : ids = members :=
        increasing.ext hashed.order_linear
          (fun m mem => canonical.inRange m ((mem_iff m).mp mem)) canonical.inRange
          canonical.increasing mem_iff
      match ids, canonical.two_le_length found with
      | first :: second :: rest, _ => exact hashed.intern_eq_self fits found

/-- The two phases of `normalize` on a combination. -/
theorem normalize_build {k : Interner} {id r : TypeId} {members flat : List TypeId}
    (found : i.get id = some (side.build members))
    (collects : Returns (fun fuel => normalizeMembers (normalize fuel)
      (fun i => i.collectMembers side fuel) i members []) (flat, j))
    (makes : Returns (fun fuel => makeCombined side fuel j flat) (r, k)) :
    Returns (fun fuel => normalize fuel i id) (r, k) := by
  apply Returns.of_succ
  cases side with
  | union =>
      simp only [normalize, found, Side.build]
      exact collects.bind makes
  | intersection =>
      simp only [normalize, found, Side.build]
      exact collects.bind makes

/-- `normalize` returns a canonical type and leaves the interner as it is. -/
theorem Normal.fixed (hashed : i.HashConsed) (fits : i.Fits) {id : TypeId}
    (normal : Normal i id) : Returns (fun fuel => normalize fuel i id) (id, i) := by
  induction normal with
  | leaf found leaf => exact normalize_leaf found leaf
  | @dynamic id facet found _ ih =>
      apply Returns.of_succ
      simp only [normalize, found]
      exact ih.map _ (hashed.intern_eq_self fits found)
  | @combined side id members found canonical _ ih =>
      have pushed : ∀ m ∈ members, ∃ ty, i.get m = some ty ∧ side.Pushed ty := by
        intro m mem
        obtain ⟨ty, mFound, isPushed, -⟩ := canonical.pushed m mem
        exact ⟨ty, mFound, isPushed⟩
      exact normalize_build found (normalizeMembers_fixed ih pushed [])
        (canonical.makeCombined hashed fits found)

/-- The laws of `normalize` in a state of a run, for the calls that end in an
admitted state. -/
structure NormalizeLaws (i : Interner) (Admitted : Interner → Prop) : Prop where
  returns : ∀ a, i.Issued a → ∃ r j, Returns (fun fuel => normalize fuel i a) (r, j)
  idempotent : ∀ a r j, i.Issued a → Returns (fun fuel => normalize fuel i a) (r, j) →
    Admitted j → Returns (fun fuel => normalize fuel j r) (r, j)
  canonical : ∀ a r j, i.Issued a → Returns (fun fuel => normalize fuel i a) (r, j) →
    Admitted j → j.Layered r

/-- In every state of a run `normalize` returns, and its result is canonical and
fixed as long as the handles suffice. -/
theorem normalizeLaws (reachable : i.Reachable) : i.NormalizeLaws Fits := by
  have coherent := reachable.coherent
  have normal {a r : TypeId} {j : Interner} (issued : i.Issued a)
      (returns : Returns (fun fuel => normalize fuel i a) (r, j)) (fits : j.Fits) :
      j.HashConsed ∧ Normal j r := by
    obtain ⟨n, k, normalizes⟩ := normalize_spec coherent issued
    obtain ⟨rfl, rfl⟩ := Prod.mk.inj (normalizes.returns.unique returns)
    exact ⟨(normalizes.run.coherent coherent).toHashConsed, (normalizes.form fits).normal⟩
  constructor
  · intro a issued
    obtain ⟨r, j, normalizes⟩ := normalize_spec coherent issued
    exact ⟨r, j, normalizes.returns⟩
  · intro a r j issued returns fits
    obtain ⟨hashed, isNormal⟩ := normal issued returns fits
    exact isNormal.fixed hashed fits
  · intro a r j issued returns fits
    obtain ⟨hashed, isNormal⟩ := normal issued returns fits
    exact isNormal.layered hashed

/-! ## Without room -/

/-- `new` with the raw unions `true | nil` and `false | nil`, at handles 5 and 6. -/
def withRaw : Interner :=
  ((new.intern (.union [⟨3⟩, ⟨2⟩])).2.intern (.union [⟨4⟩, ⟨2⟩])).2

/-- Then with the integer literals `0, 1, …`. -/
def padded : Nat → Interner
  | 0 => withRaw
  | n + 1 => ((padded n).intern (.constant (.int (Int64.ofNat n)))).2

theorem arena_withRaw :
    withRaw.arena = atomics ++ [.union [⟨3⟩, ⟨2⟩], .union [⟨4⟩, ⟨2⟩]] := by
  rfl

theorem reachable_withRaw : withRaw.Reachable := by
  have first : Run new (new.intern (.union [⟨3⟩, ⟨2⟩])).2 := by
    apply Run.intern .refl
    intro child mem
    have small : child = ⟨3⟩ ∨ child = ⟨2⟩ := by simpa [Carrier.children] using mem
    rcases small with rfl | rfl <;> exact issued_atomic_new (by decide)
  apply first.intern
  intro child mem
  have small : child = ⟨4⟩ ∨ child = ⟨2⟩ := by simpa [Carrier.children] using mem
  rcases small with rfl | rfl <;>
    exact first.issued coherent_new (issued_atomic_new (by decide))

theorem normalizeLaws_withRaw : withRaw.NormalizeLaws Fits :=
  normalizeLaws reachable_withRaw

theorem padded_spec (n : Nat) (bound : n ≤ 2 ^ 63) :
    (padded n).Reachable ∧ (padded n).arena = withRaw.arena ++
      (List.range n).map fun k => (.constant (.int (Int64.ofNat k)) : Ty) := by
  induction n with
  | zero => exact ⟨reachable_withRaw, by simp [padded]⟩
  | succ n ih =>
      obtain ⟨reachable, arena⟩ := ih (by omega)
      refine ⟨reachable.tail ⟨_, by simp [Carrier.children], rfl⟩, ?_⟩
      rcases reachable.coherent.intern_cases (.constant (.int (Int64.ofNat n))) with
        ⟨k, found, -⟩ | ⟨-, -, grown⟩
      · have mem := List.mem_of_getElem? found
        have fresh := int_notMem_filled (Nat.le_refl n) bound
        rw [arena, List.mem_append] at mem
        rw [List.mem_append, not_or] at fresh
        rcases mem with inRaw | inRange
        · rw [arena_withRaw, List.mem_append] at inRaw
          rcases inRaw with inAtomics | inUnions
          · exact absurd inAtomics fresh.1
          · simp at inUnions
        · exact absurd inRange fresh.2
      · rw [padded, grown, arena, List.range_succ, List.map_append, List.append_assoc]
        rfl

theorem length_padded {n : Nat} (bound : n ≤ 2 ^ 63) : (padded n).arena.length = 7 + n := by
  rw [(padded_spec n bound).2, arena_withRaw]
  simp only [atomics, List.length_append, List.length_map, List.length_range]
  rfl

/-- The only unions are the two raw ones. -/
theorem union_mem_padded {n : Nat} (bound : n ≤ 2 ^ 63) (members : List TypeId)
    (mem : .union members ∈ (padded n).arena) :
    members = [⟨3⟩, ⟨2⟩] ∨ members = [⟨4⟩, ⟨2⟩] := by
  rw [(padded_spec n bound).2, arena_withRaw] at mem
  simpa [atomics] using mem

theorem get_padded {n : Nat} (bound : n ≤ 2 ^ 63) :
    (padded n).get ⟨5⟩ = some (.union [⟨3⟩, ⟨2⟩]) ∧
      (padded n).get ⟨6⟩ = some (.union [⟨4⟩, ⟨2⟩]) := by
  simp only [get, (padded_spec n bound).2]
  constructor
  · rw [List.getElem?_append_left (by decide)]
    rfl
  · rw [List.getElem?_append_left (by decide)]
    rfl

/-- `nil` comes before `true` and `false`. -/
theorem Coherent.not_before_nil (coherent : i.Coherent) {k : Nat} (isBool : k = 3 ∨ k = 4) :
    ¬ i.Before ⟨k⟩ ⟨2⟩ := by
  intro before
  have nilFound : i.get ⟨2⟩ = some (.constant .nil) := coherent.get_atomic rfl
  have after : Returns (fun fuel => i.cmp fuel ⟨k⟩ ⟨2⟩) .gt := by
    apply Returns.of_const
    intro fuel
    rcases isBool with rfl | rfl
    · have found : i.get ⟨3⟩ = some (.constant (.bool true)) := coherent.get_atomic rfl
      rw [cmp, nilFound, found]
      rfl
    · have found : i.get ⟨4⟩ = some (.constant (.bool false)) := coherent.get_atomic rfl
      rw [cmp, nilFound, found]
      rfl
  exact absurd (before.unique after) (by decide)

/-- In a full arena the normal form of `false | nil` is answered as the handle of
the raw union `true | nil`. -/
theorem not_normalizeLaws_padded :
    (padded (2 ^ 32 - 2)).Reachable ∧ ¬ (padded (2 ^ 32 - 2)).NormalizeLaws fun _ => True := by
  have bound : 2 ^ 32 - 2 ≤ 2 ^ 63 := by decide
  have full : (padded (2 ^ 32 - 2)).arena.length = capacity + 5 := by
    rw [length_padded bound]
    decide
  have reachable := (padded_spec _ bound).1
  have raws := union_mem_padded bound
  obtain ⟨firstRaw, secondRaw⟩ := get_padded bound
  generalize padded (2 ^ 32 - 2) = i at full reachable raws firstRaw secondRaw
  refine ⟨reachable, fun laws => ?_⟩
  have coherent := reachable.coherent
  have nilFound : i.get ⟨2⟩ = some (.constant .nil) := coherent.get_atomic rfl
  have falseFound : i.get ⟨4⟩ = some (.constant (.bool false)) := coherent.get_atomic rfl
  have atoms : ∀ m ∈ [(⟨4⟩ : TypeId), ⟨2⟩], ∃ scalar, i.get m = some (.constant scalar) := by
    simp [nilFound, falseFound]
  have issued : ∀ m ∈ [(⟨4⟩ : TypeId), ⟨2⟩], i.Issued m := by
    simp [coherent.issued_atomic]
  -- the members are collected as they are
  have collects : Returns (fun fuel => normalizeMembers (normalize fuel)
      (fun i => i.collectMembers .union fuel) i [⟨4⟩, ⟨2⟩] []) ([⟨4⟩, ⟨2⟩], i) := by
    refine normalizeMembers_fixed ?_ ?_ []
    · intro m mem
      obtain ⟨scalar, found⟩ := atoms m mem
      exact normalize_leaf found (leaf_constant scalar)
    · intro m mem
      obtain ⟨scalar, found⟩ := atoms m mem
      exact ⟨_, found, (atomic_constant scalar).2⟩
  obtain ⟨r, j, answers, combines⟩ := makeCombined_spec .union coherent.toHashConsed issued
  have makes : Returns (fun fuel => makeCombined .union fuel i [⟨4⟩, ⟨2⟩]) (r, j) := by
    refine ⟨i.arena.length, fun fuel enough => answers fuel fun m mem => ?_⟩
    exact Nat.lt_trans (coherent.issued_lt (issued m mem)) enough
  have secondBuilt : i.get ⟨6⟩ = some (Side.union.build [⟨4⟩, ⟨2⟩]) := secondRaw
  have returns := normalize_build secondBuilt collects makes
  have run := (combines.run coherent issued).1
  have secondIssued : i.Issued ⟨6⟩ :=
    coherent.issued_iff.mpr ⟨get_eq_some_lt secondRaw, by decide⟩
  -- the sorted union is new, so its handle is the position that wraps around
  have handle : r = ⟨5⟩ := by
    cases combines with
    | @absorbed m mem absorbed =>
        obtain ⟨scalar, found⟩ := atoms m mem
        exact absurd (found.symm.trans absorbed) (by simp)
    | @sorted ids _ increasing mem_iff =>
        have falseMem : ⟨4⟩ ∈ ids := (mem_iff _).mpr (by simp)
        have nilMem : ⟨2⟩ ∈ ids := (mem_iff _).mpr (by simp)
        match ids with
        | [] => exact absurd falseMem (by simp)
        | [m] =>
            rw [List.mem_singleton] at falseMem nilMem
            exact absurd (falseMem.trans nilMem.symm) (by decide)
        | first :: second :: rest =>
            rcases coherent.intern_cases (.union (first :: second :: rest)) with
              ⟨k, found, -⟩ | ⟨-, fresh, -⟩
            · rcases raws _ (List.mem_of_getElem? found) with same | same
              · rw [same] at falseMem
                exact absurd falseMem (by decide)
              · rw [same] at increasing
                have below := List.rel_of_pairwise_cons increasing List.mem_cons_self
                have inRange {m : TypeId} (mem : m ∈ [(⟨4⟩ : TypeId), ⟨2⟩]) : i.InRange m :=
                  coherent.issued_lt (issued m mem)
                have before := (coherent.before_iff (inRange (by simp)) (inRange (by simp))).mpr below
                exact absurd before (coherent.not_before_nil (Or.inr rfl))
            · rwa [full, Nat.add_mod_left, Nat.mod_eq_of_lt (by decide)] at fresh
  have layered := laws.canonical _ r j secondIssued returns trivial
  rw [handle] at layered
  have found : j.get ⟨5⟩ = some (Side.union.build [⟨3⟩, ⟨2⟩]) := run.get_eq firstRaw
  cases layered with
  | leaf other leaf =>
      rw [found, Option.some.injEq] at other
      exact leaf.2 .union _ other.symm
  | dynamic other => exact absurd (found.symm.trans other) (by simp)
  | combined other _ increasing =>
      rw [found, Option.some.injEq] at other
      obtain ⟨rfl, rfl⟩ := Side.build_eq_build other
      have before := List.rel_of_pairwise_cons increasing List.mem_cons_self
      exact (run.coherent coherent).not_before_nil (Or.inl rfl) before


end Interner

end Rigor.Types
