import Mathlib.Data.Finset.Dedup
import Mathlib.Data.Finset.Lattice.Lemmas
import Mathlib.Order.BoundedOrder.Basic
import Rigor.Types.Joins

/-!
# What a normalized type means

A normalized type is a set of atoms, or everything, under a number of `Dynamic`
wrappers.  These meanings form a join semilattice with a bottom.  A type with a
meaning is determined by it, and `join` computes the join of the meanings.
-/

namespace Rigor.Types

open Rigor.Library.Fuel Rigor.Library.Order

universe u

/-- A set of atoms, or everything, under `depth` wrappers. -/
inductive Meaning (α : Type u) where
  | everything (depth : Nat)
  | atoms (depth : Nat) (set : Finset α)
deriving Inhabited

namespace Meaning

variable {α : Type u}

/-- One more `Dynamic` wrapper. -/
def wrap : Meaning α → Meaning α
  | everything depth => everything (depth + 1)
  | atoms depth set => atoms (depth + 1) set

variable [DecidableEq α]

/-- Everything absorbs sets of atoms, and the fewest wrappers absorb the rest;
sets of atoms are united under the most wrappers. -/
def sup : Meaning α → Meaning α → Meaning α
  | everything m, everything n => everything (min m n)
  | everything m, atoms _ _ => everything m
  | atoms _ _, everything n => everything n
  | atoms m s, atoms n t => atoms (max m n) (s ∪ t)

instance : Max (Meaning α) :=
  ⟨sup⟩

@[simp]
theorem everything_sup_everything (m n : Nat) :
    (everything m : Meaning α) ⊔ everything n = everything (min m n) :=
  rfl

@[simp]
theorem everything_sup_atoms (m n : Nat) (t : Finset α) :
    everything m ⊔ atoms n t = everything m :=
  rfl

@[simp]
theorem atoms_sup_everything (m n : Nat) (s : Finset α) :
    atoms m s ⊔ everything n = everything n :=
  rfl

@[simp]
theorem atoms_sup_atoms (m n : Nat) (s t : Finset α) :
    atoms m s ⊔ atoms n t = atoms (max m n) (s ∪ t) :=
  rfl

theorem sup_comm' (a b : Meaning α) : a ⊔ b = b ⊔ a := by
  cases a <;> cases b <;> simp [Nat.min_comm, Nat.max_comm, Finset.union_comm]

theorem sup_assoc' (a b c : Meaning α) : a ⊔ b ⊔ c = a ⊔ (b ⊔ c) := by
  cases a <;> cases b <;> cases c <;> simp [Nat.min_assoc, Nat.max_assoc, Finset.union_assoc]

theorem sup_idem' (a : Meaning α) : a ⊔ a = a := by
  cases a <;> simp

instance : SemilatticeSup (Meaning α) :=
  SemilatticeSup.mk' sup_comm' sup_assoc' sup_idem'

instance : OrderBot (Meaning α) where
  bot := atoms 0 ∅
  bot_le a := by
    rw [← sup_eq_right]
    cases a <;> simp

/-- Wrapped on both sides. -/
theorem wrap_sup_wrap (a b : Meaning α) : a.wrap ⊔ b.wrap = (a ⊔ b).wrap := by
  cases a <;> cases b <;> simp [wrap]

/-- Wrapped on one side, against a bare set of atoms. -/
theorem wrap_sup_atoms (a : Meaning α) (t : Finset α) :
    a.wrap ⊔ atoms 0 t = (a ⊔ atoms 0 t).wrap := by
  cases a <;> simp [wrap]

omit [DecidableEq α] in
theorem wrap_ne_everything (a : Meaning α) : a.wrap ≠ everything 0 := by
  cases a <;> simp [wrap]

omit [DecidableEq α] in
theorem wrap_ne_atoms (a : Meaning α) (t : Finset α) : a.wrap ≠ atoms 0 t := by
  cases a <;> simp [wrap]

omit [DecidableEq α] in
theorem wrap_injective : Function.Injective (wrap : Meaning α → Meaning α) := by
  intro a b same
  cases a <;> cases b <;> simp_all [wrap]

theorem everything_zero_sup (a : Meaning α) : everything 0 ⊔ a = everything 0 := by
  cases a <;> simp

end Meaning

/-- The carriers that are no union, no wrapper and no bound of the lattice. -/
def Carrier.Atomic (ty : Ty) : Prop :=
  ty.Plain ∧ ty.Pushed

namespace Interner

variable {i j : Interner}

/-- Sorted atoms. -/
structure SortedAtoms (i : Interner) (ids : List TypeId) : Prop where
  increasing : Increasing i.order ids
  atomic : ∀ m ∈ ids, ∃ ty, i.get m = some ty ∧ ty.Atomic

/-- The normalized types and their meanings. -/
inductive Means (i : Interner) : TypeId → Meaning TypeId → Prop
  | top {id : TypeId} (found : i.get id = some .top) : Means i id (.everything 0)
  | atoms {id : TypeId} {ids : List TypeId} (sorted : SortedAtoms i ids)
      (isUnion : IsCombined .union i id ids) : Means i id (.atoms 0 ids.toFinset)
  | dynamic {id facet : TypeId} {meaning : Meaning TypeId}
      (found : i.get id = some (.dynamic facet)) (inner : Means i facet meaning) :
      Means i id meaning.wrap

/-! ## The order along a run -/

/-- A handle keeps its tree. -/
theorem Run.resolve_eq (run : Run i j) (before : i.Coherent) {id : TypeId}
    (inRange : i.InRange id) : i.resolve id = j.resolve id := by
  obtain ⟨n, bound⟩ : ∃ n, id.index < n := ⟨id.index + 1, Nat.lt_succ_self _⟩
  induction n generalizing id with
  | zero => exact absurd bound (Nat.not_lt_zero _)
  | succ n ih =>
      obtain ⟨ty, found⟩ := exists_get inRange
      rw [before.resolve_eq found, (run.coherent before).resolve_eq (run.get_eq found)]
      apply congrArg Tree.node
      apply Carrier.map_congr
      intro child childMem
      have below := before.child_inRange found childMem
      exact ih below.2 (by omega)

/-- Handles keep their order. -/
theorem Run.order_eq (run : Run i j) (before : i.Coherent) {a b : TypeId} (aInRange : i.InRange a)
    (bInRange : i.InRange b) : i.order a b = j.order a b := by
  have later {id : TypeId} (inRange : i.InRange id) : j.InRange id :=
    Nat.lt_of_lt_of_le inRange run.arena_prefix.length_le
  exact before.order_congr (run.coherent before).toHashConsed aInRange bInRange (later aInRange)
    (later bInRange) (run.resolve_eq before aInRange) (run.resolve_eq before bInRange)

theorem Run.increasing (run : Run i j) (before : i.Coherent) {ids : List TypeId}
    (inRange : ∀ id ∈ ids, i.InRange id) (increasing : Increasing i.order ids) :
    Increasing j.order ids := by
  refine List.Pairwise.imp_of_mem ?_ increasing
  intro a b aMem bMem below
  rw [← run.order_eq before (inRange a aMem) (inRange b bMem), below]

/-! ## Meanings determine normalized types -/

namespace SortedAtoms

variable {ids : List TypeId}

theorem inRange (sorted : SortedAtoms i ids) : ∀ m ∈ ids, i.InRange m := by
  intro m mem
  obtain ⟨ty, found, -⟩ := sorted.atomic m mem
  exact get_eq_some_lt found

theorem run (sorted : SortedAtoms i ids) (run : Run i j) (before : i.Coherent) :
    SortedAtoms j ids where
  increasing := run.increasing before sorted.inRange sorted.increasing
  atomic m mem := by
    obtain ⟨ty, found, atomic⟩ := sorted.atomic m mem
    exact ⟨ty, run.get_eq found, atomic⟩

/-- The members that a union of sorted atoms is collected into. -/
theorem unionMember_iff (sorted : SortedAtoms i ids) {id m : TypeId}
    (isUnion : IsCombined .union i id ids) : Member .union i id m ↔ m ∈ ids := by
  match ids with
  | [] => simpa using member_neutral isUnion
  | [member] =>
      obtain rfl : id = member := isUnion
      obtain ⟨ty, found, atomic⟩ := sorted.atomic id List.mem_cons_self
      rw [member_self_iff found atomic.2, List.mem_singleton]
  | first :: second :: rest =>
      rw [member_build_iff isUnion]
      constructor
      · rintro ⟨child, childMem, member⟩
        obtain ⟨ty, found, atomic⟩ := sorted.atomic child childMem
        rwa [(member_self_iff found atomic.2).mp member]
      · intro mem
        obtain ⟨ty, found, atomic⟩ := sorted.atomic m mem
        exact ⟨m, mem, .self found atomic.2⟩

/-- A union of atoms is neither `top` nor a wrapper. -/
theorem get_ne (sorted : SortedAtoms i ids) {id : TypeId} (isUnion : IsCombined .union i id ids) :
    i.get id ≠ some .top ∧ ∀ facet, i.get id ≠ some (.dynamic facet) := by
  match ids with
  | [] =>
      have found : i.get id = some .bottom := isUnion
      simp [found]
  | [member] =>
      obtain rfl : id = member := isUnion
      obtain ⟨ty, found, ⟨notTop, -, notDynamic⟩, -⟩ := sorted.atomic id List.mem_cons_self
      rw [found]
      exact ⟨fun same => notTop (Option.some.inj same),
        fun facet same => notDynamic facet (Option.some.inj same)⟩
  | first :: second :: rest =>
      have found : i.get id = some (.union (first :: second :: rest)) := isUnion
      simp [found]

end SortedAtoms

namespace Means

variable {id : TypeId} {meaning : Meaning TypeId}

theorem run (means : Means i id meaning) (run : Run i j) (before : i.Coherent) :
    Means j id meaning := by
  induction means with
  | top found => exact .top (run.get_eq found)
  | atoms sorted isUnion => exact .atoms (sorted.run run before) (isUnion.run run)
  | dynamic found _ ih => exact .dynamic (run.get_eq found) ih

theorem of_top (means : Means i id meaning) (found : i.get id = some .top) :
    meaning = .everything 0 := by
  cases means with
  | top => rfl
  | atoms sorted isUnion => exact absurd found (sorted.get_ne isUnion).1
  | dynamic other => simp [found] at other

theorem of_dynamic {facet : TypeId} (means : Means i id meaning)
    (found : i.get id = some (.dynamic facet)) :
    ∃ inner, Means i facet inner ∧ meaning = inner.wrap := by
  cases means with
  | top other => simp [found] at other
  | atoms sorted isUnion => exact absurd found ((sorted.get_ne isUnion).2 facet)
  | @dynamic _ other inner otherFound innerMeans =>
      rw [found, Option.some.injEq, Carrier.dynamic.injEq] at otherFound
      exact ⟨inner, otherFound ▸ innerMeans, rfl⟩

/-- Neither `top` nor a wrapper: a set of atoms. -/
theorem of_ne (means : Means i id meaning) (notTop : i.get id ≠ some .top)
    (notDynamic : ∀ facet, i.get id ≠ some (.dynamic facet)) :
    ∃ ids, SortedAtoms i ids ∧ IsCombined .union i id ids ∧ meaning = .atoms 0 ids.toFinset := by
  cases means with
  | top found => exact absurd found notTop
  | atoms sorted isUnion => exact ⟨_, sorted, isUnion, rfl⟩
  | dynamic found => exact absurd found (notDynamic _)

/-- A type has at most one meaning. -/
theorem unique {other : Meaning TypeId} (means : Means i id meaning)
    (meansOther : Means i id other) : meaning = other := by
  induction means generalizing other with
  | top found => exact (meansOther.of_top found).symm
  | atoms sorted isUnion =>
      have differs := sorted.get_ne isUnion
      obtain ⟨ids, otherSorted, otherUnion, rfl⟩ := meansOther.of_ne differs.1 differs.2
      congr 1
      ext m
      rw [List.mem_toFinset, List.mem_toFinset, ← sorted.unionMember_iff isUnion,
        ← otherSorted.unionMember_iff otherUnion]
  | dynamic found _ ih =>
      obtain ⟨inner, innerMeans, rfl⟩ := meansOther.of_dynamic found
      rw [ih innerMeans]

/-- Types with one meaning are one type. -/
theorem injective (hashed : i.HashConsed) {a b : TypeId} (meansA : Means i a meaning)
    (meansB : Means i b meaning) : a = b := by
  induction meansA generalizing b with
  | @top a found =>
      generalize shared : (Meaning.everything 0 : Meaning TypeId) = meaning at meansB
      cases meansB with
      | top other => exact hashed.get_injective found other
      | atoms => exact absurd shared (by simp)
      | @dynamic _ _ inner => exact absurd shared.symm inner.wrap_ne_everything
  | @atoms a ids sorted isUnion =>
      generalize shared : Meaning.atoms 0 ids.toFinset = meaning at meansB
      cases meansB with
      | top => exact absurd shared (by simp)
      | @atoms _ others otherSorted otherUnion =>
          have sameSet := (Meaning.atoms.inj shared).2
          obtain rfl : ids = others := by
            apply sorted.increasing.ext hashed.order_linear sorted.inRange otherSorted.inRange
              otherSorted.increasing
            intro m
            rw [← List.mem_toFinset, sameSet, List.mem_toFinset]
          exact isUnion.unique hashed otherUnion
      | @dynamic _ _ inner => exact absurd shared.symm (inner.wrap_ne_atoms _)
  | @dynamic a facet inner found _ ih =>
      generalize shared : inner.wrap = meaning at meansB
      cases meansB with
      | top => exact absurd shared inner.wrap_ne_everything
      | atoms => exact absurd shared (inner.wrap_ne_atoms _)
      | dynamic other otherInner =>
          obtain rfl := Meaning.wrap_injective shared
          rw [ih otherInner] at found
          exact hashed.get_injective found other

end Means

/-! ## `join` joins the meanings -/

theorem Combines.means {members : TypeId → Prop} {set : Finset TypeId} {r : TypeId}
    (unites : Combines .union i members r j) (coherent : i.Coherent) (issued : ∀ m, members m → i.Issued m)
    (atomic : ∀ m, members m → ∃ ty, i.get m = some ty ∧ ty.Atomic)
    (mem_set : ∀ m, m ∈ set ↔ members m) (fits : j.Fits) : Means j r (.atoms 0 set) := by
  have run := (unites.run coherent issued).1
  cases unites with
  | absorbed mem found =>
      obtain ⟨ty, other, ⟨notTop, -⟩, -⟩ := atomic _ mem
      exact absurd (Option.some.inj (other.symm.trans found)) notTop
  | @sorted ids _ increasing mem_iff =>
      have sorted : SortedAtoms i ids :=
        ⟨increasing, fun m mem => atomic m ((mem_iff m).mp mem)⟩
      obtain rfl : set = ids.toFinset := by
        ext m
        rw [List.mem_toFinset, mem_set, mem_iff]
      exact .atoms (sorted.run run coherent) (.of_intern coherent fits)

theorem Means.intern_dynamic {facet : TypeId} {meaning : Meaning TypeId} (coherent : i.Coherent)
    (issued : i.Issued facet) (means : Means i facet meaning)
    (fits : (i.intern (.dynamic facet)).2.Fits) :
    Means (i.intern (.dynamic facet)).2 (i.intern (.dynamic facet)).1 meaning.wrap := by
  have run : Run i (i.intern (.dynamic facet)).2 := by
    apply Run.intern .refl
    intro child mem
    obtain rfl := List.mem_singleton.mp mem
    exact issued
  exact .dynamic (coherent.get_intern _ fits) (means.run run coherent)

theorem Means.of_plain {id : TypeId} {meaning : Meaning TypeId} {ty : Ty}
    (means : Means i id meaning) (found : i.get id = some ty) (plain : ty.Plain) :
    ∃ ids, SortedAtoms i ids ∧ IsCombined .union i id ids ∧ meaning = .atoms 0 ids.toFinset := by
  apply means.of_ne
  · intro top
    exact plain.1 (Option.some.inj (found.symm.trans top))
  · intro facet dynamic
    exact plain.2.2 facet (Option.some.inj (found.symm.trans dynamic))

theorem means_bottom {id : TypeId} (found : i.get id = some .bottom) : Means i id ⊥ := by
  have empty : SortedAtoms i [] := ⟨List.Pairwise.nil, by simp⟩
  exact .atoms empty found

/-- `join` computes the join of the meanings. -/
theorem Joins.means {a b r : TypeId} {first second : Meaning TypeId} (joins : Joins i a b r j)
    (coherent : i.Coherent) (aIssued : i.Issued a) (bIssued : i.Issued b)
    (meansA : Means i a first) (meansB : Means i b second) (fits : j.Fits) :
    Means j r (first ⊔ second) := by
  have wrapped {i j : Interner} {fa fb facet : TypeId} {inner : Meaning TypeId}
      (before : i.Coherent) (faIssued : i.Issued fa) (fbIssued : i.Issued fb)
      (facets : Joins i fa fb facet j) (joined : j.Fits → Means j facet inner)
      (fits : (j.intern (.dynamic facet)).2.Fits) :
      Means (j.intern (.dynamic facet)).2 (j.intern (.dynamic facet)).1 inner.wrap := by
    have facetRun := facets.run before faIssued fbIssued
    have after := facetRun.1.coherent before
    have last : Run j (j.intern (.dynamic facet)).2 := by
      apply Run.intern .refl
      intro child mem
      obtain rfl := List.mem_singleton.mp mem
      exact facetRun.2
    exact (joined (last.fits fits)).intern_dynamic after facetRun.2 fits
  induction joins generalizing first second with
  | same =>
      obtain rfl := meansA.unique meansB
      rwa [sup_idem]
  | bottomLeft found =>
      obtain rfl := meansA.unique (means_bottom found)
      rwa [bot_sup_eq]
  | bottomRight found =>
      obtain rfl := meansB.unique (means_bottom found)
      rwa [sup_bot_eq]
  | top found =>
      have everything : first ⊔ second = .everything 0 := by
        rcases found with aTop | bTop
        · rw [meansA.of_top aTop, Meaning.everything_zero_sup]
        · rw [meansB.of_top bTop, sup_comm, Meaning.everything_zero_sup]
      rw [everything]
      exact .top coherent.get_top
  | dynamic aFound bFound facets ih =>
      have faIssued := coherent.child_issued aIssued aFound (List.mem_singleton_self _)
      have fbIssued := coherent.child_issued bIssued bFound (List.mem_singleton_self _)
      obtain ⟨innerA, meansFa, rfl⟩ := meansA.of_dynamic aFound
      obtain ⟨innerB, meansFb, rfl⟩ := meansB.of_dynamic bFound
      rw [Meaning.wrap_sup_wrap]
      exact wrapped coherent faIssued.2 fbIssued.2 facets
        (ih faIssued.2 fbIssued.2 meansFa meansFb) fits
  | dynamicLeft aFound bFound plain facets ih =>
      have faIssued := coherent.child_issued aIssued aFound (List.mem_singleton_self _)
      obtain ⟨innerA, meansFa, rfl⟩ := meansA.of_dynamic aFound
      obtain ⟨ids, -, -, rfl⟩ := meansB.of_plain bFound plain
      rw [Meaning.wrap_sup_atoms]
      exact wrapped coherent faIssued.2 bIssued facets
        (ih faIssued.2 bIssued meansFa meansB) fits
  | dynamicRight aFound plain bFound facets ih =>
      have fbIssued := coherent.child_issued bIssued bFound (List.mem_singleton_self _)
      obtain ⟨innerB, meansFb, rfl⟩ := meansB.of_dynamic bFound
      obtain ⟨ids, -, -, rfl⟩ := meansA.of_plain aFound plain
      rw [sup_comm, Meaning.wrap_sup_atoms, sup_comm]
      exact wrapped coherent aIssued fbIssued.2 facets
        (ih aIssued fbIssued.2 meansA meansFb) fits
  | union _ aFound aPlain bFound bPlain unites =>
      obtain ⟨as, aSorted, aUnion, rfl⟩ := meansA.of_plain aFound aPlain
      obtain ⟨bs, bSorted, bUnion, rfl⟩ := meansB.of_plain bFound bPlain
      have member (m : TypeId) : Member .union _ _ m ∨ Member .union _ _ m ↔ m ∈ as ∨ m ∈ bs :=
        or_congr (aSorted.unionMember_iff aUnion) (bSorted.unionMember_iff bUnion)
      simp only [member] at unites
      rw [Meaning.atoms_sup_atoms]
      apply unites.means coherent _ _ _ fits
      · rintro m (inA | inB)
        · exact (((aSorted.unionMember_iff aUnion).mpr inA).issued coherent.toHashConsed aIssued).1
        · exact (((bSorted.unionMember_iff bUnion).mpr inB).issued coherent.toHashConsed bIssued).1
      · rintro m (inA | inB)
        · exact aSorted.atomic m inA
        · exact bSorted.atomic m inB
      · intro m
        simp

end Interner

end Rigor.Types
