import Rigor.Library.Fuel
import Rigor.Types.Algebra
import Rigor.Types.Compare

/-!
# Runs of `join`

`Joins i a b r j` says that `join` on `a` and `b` in the interner `i` answers `r`
and leaves the interner `j`; its constructors are the branches of the source.
With enough fuel `join` answers, and every answer is such a run.
-/

namespace Rigor.Types

open Rigor.Library.Fuel Rigor.Library.Order

/-- The carriers that `collect_union_members` pushes. -/
abbrev Carrier.Pushed (ty : Ty) : Prop :=
  Side.union.Pushed ty

/-- The carriers that `join` neither absorbs nor unwraps. -/
def Carrier.Plain (ty : Ty) : Prop :=
  ty ≠ .top ∧ ty ≠ .bottom ∧ ∀ facet, ty ≠ .dynamic facet

namespace Interner

variable {i j : Interner}

/-- `m` is pushed when the members of `id` are collected. -/
inductive Member (side : Side) (i : Interner) : TypeId → TypeId → Prop
  | self {id : TypeId} {ty : Ty} (found : i.get id = some ty) (pushed : side.Pushed ty) :
      Member side i id id
  | nested {id child m : TypeId} {members : List TypeId}
      (found : i.get id = some (side.build members)) (mem : child ∈ members)
      (inner : Member side i child m) : Member side i id m

/-- The canonical combination of a set of members. -/
inductive Combines (side : Side) (i : Interner) (members : TypeId → Prop) :
    TypeId → Interner → Prop
  | absorbed {m : TypeId} (mem : members m) (found : i.get m = some side.absorbing) :
      Combines side i members (i.absorbing side) i
  | sorted {ids : List TypeId} (kept : ∀ m, members m → i.get m ≠ some side.absorbing)
      (increasing : Increasing i.order ids) (mem_iff : ∀ m, m ∈ ids ↔ members m) :
      Combines side i members (i.internCombined side ids).1 (i.internCombined side ids).2

/-- The runs of `join`. -/
inductive Joins : Interner → TypeId → TypeId → TypeId → Interner → Prop
  | same {i : Interner} {a : TypeId} : Joins i a a a i
  | bottomLeft {i : Interner} {a b : TypeId} (found : i.get a = some .bottom) : Joins i a b b i
  | bottomRight {i : Interner} {a b : TypeId} (found : i.get b = some .bottom) : Joins i a b a i
  | top {i : Interner} {a b : TypeId} (found : i.get a = some .top ∨ i.get b = some .top) :
      Joins i a b i.top i
  | dynamic {i j : Interner} {a b fa fb facet : TypeId} (aFound : i.get a = some (.dynamic fa))
      (bFound : i.get b = some (.dynamic fb)) (facets : Joins i fa fb facet j) :
      Joins i a b (j.intern (.dynamic facet)).1 (j.intern (.dynamic facet)).2
  | dynamicLeft {i j : Interner} {a b fa facet : TypeId} {tb : Ty}
      (aFound : i.get a = some (.dynamic fa)) (bFound : i.get b = some tb) (plain : tb.Plain)
      (facets : Joins i fa b facet j) :
      Joins i a b (j.intern (.dynamic facet)).1 (j.intern (.dynamic facet)).2
  | dynamicRight {i j : Interner} {a b fb facet : TypeId} {ta : Ty} (aFound : i.get a = some ta)
      (plain : ta.Plain) (bFound : i.get b = some (.dynamic fb))
      (facets : Joins i a fb facet j) :
      Joins i a b (j.intern (.dynamic facet)).1 (j.intern (.dynamic facet)).2
  | union {i j : Interner} {a b r : TypeId} {ta tb : Ty} (distinct : a ≠ b)
      (aFound : i.get a = some ta) (aPlain : ta.Plain) (bFound : i.get b = some tb)
      (bPlain : tb.Plain)
      (unites : Combines .union i (fun m => Member .union i a m ∨ Member .union i b m) r j) :
      Joins i a b r j

/-! ## Collecting members -/

theorem foldlM_collect {collect : Nat → TypeId → List TypeId → Option (List TypeId)}
    {pushed : TypeId → TypeId → Prop} {bound : Nat} {ids : List TypeId}
    (each : ∀ id ∈ ids, ∃ members, (∀ fuel, bound ≤ fuel → ∀ out,
      collect fuel id out = some (out ++ members)) ∧ ∀ m, m ∈ members ↔ pushed id m) :
    ∃ members, (∀ fuel, bound ≤ fuel → ∀ out,
      ids.foldlM (fun out id => collect fuel id out) out = some (out ++ members)) ∧
        ∀ m, m ∈ members ↔ ∃ id ∈ ids, pushed id m := by
  induction ids with
  | nil => exact ⟨[], by simp, by simp⟩
  | cons id rest ih =>
      rw [List.forall_mem_cons] at each
      obtain ⟨first, collected, first_iff⟩ := each.1
      obtain ⟨others, folded, others_iff⟩ := ih each.2
      refine ⟨first ++ others, ?_, ?_⟩
      · intro fuel enough out
        simp [collected fuel enough, folded fuel enough]
      · intro m
        simp [first_iff, others_iff]

variable {side : Side}

theorem Member.issued {id m : TypeId} (member : Member side i id m) (hashed : i.HashConsed)
    (issued : i.Issued id) : i.Issued m ∧ m.index ≤ id.index := by
  induction member with
  | self => exact ⟨issued, Nat.le_refl _⟩
  | nested found mem _ ih =>
      have child := hashed.child_issued issued found (by rwa [side.children_build])
      have inner := ih child.2
      exact ⟨inner.1, Nat.le_trans inner.2 (Nat.le_of_lt child.1)⟩

theorem Member.pushed {id m : TypeId} (member : Member side i id m) :
    ∃ ty, i.get m = some ty ∧ side.Pushed ty := by
  induction member with
  | self found pushed => exact ⟨_, found, pushed⟩
  | nested _ _ _ ih => exact ih

theorem member_self_iff {id m : TypeId} {ty : Ty} (found : i.get id = some ty)
    (pushed : side.Pushed ty) : Member side i id m ↔ m = id := by
  constructor
  · intro member
    cases member with
    | self => rfl
    | nested combined =>
        rw [found, Option.some.injEq] at combined
        exact absurd combined (pushed.2 _)
  · rintro rfl
    exact .self found pushed

theorem member_neutral {id m : TypeId} (found : i.get id = some side.neutral) :
    ¬ Member side i id m := by
  intro member
  cases member with
  | self other pushed =>
      rw [found, Option.some.injEq] at other
      exact pushed.1 other.symm
  | nested combined =>
      rw [found, Option.some.injEq] at combined
      exact side.build_ne_neutral _ combined.symm

theorem member_build_iff {id m : TypeId} {members : List TypeId}
    (found : i.get id = some (side.build members)) :
    Member side i id m ↔ ∃ child ∈ members, Member side i child m := by
  constructor
  · intro member
    cases member with
    | self other pushed =>
        rw [found, Option.some.injEq] at other
        exact absurd other.symm (pushed.2 members)
    | nested combined mem inner =>
        rw [found, Option.some.injEq] at combined
        exact ⟨_, side.build_injective combined ▸ mem, inner⟩
  · rintro ⟨child, mem, inner⟩
    exact .nested found mem inner

/-- `collect_union_members` and `collect_intersection_members` push the members. -/
theorem collectMembers_spec (side : Side) (hashed : i.HashConsed) {id : TypeId} (issued : i.Issued id) :
    ∃ members, (∀ fuel, id.index < fuel → ∀ out,
      i.collectMembers side fuel id out = some (out ++ members)) ∧
        ∀ m, m ∈ members ↔ Member side i id m := by
  obtain ⟨n, bound⟩ : ∃ n, id.index < n := ⟨id.index + 1, Nat.lt_succ_self _⟩
  induction n generalizing id with
  | zero => exact absurd bound (Nat.not_lt_zero _)
  | succ n ih =>
      obtain ⟨ty, found⟩ := hashed.exists_get_of_issued issued
      have answers {members : List TypeId} (answer : ∀ fuel, id.index ≤ fuel → ∀ out,
          i.collectMembers side (fuel + 1) id out = some (out ++ members)) :
          ∀ fuel, id.index < fuel → ∀ out,
            i.collectMembers side fuel id out = some (out ++ members) := by
        intro fuel enough
        obtain ⟨fuel, rfl⟩ := Nat.exists_eq_succ_of_ne_zero (Nat.ne_zero_of_lt enough)
        exact answer fuel (Nat.le_of_lt_succ enough)
      rcases side.kinds ty with rfl | ⟨members, rfl⟩ | ⟨pushed, noParts⟩
      · refine ⟨[], answers fun fuel _ out => by simp [collectMembers, found], fun m => ?_⟩
        simpa using member_neutral found
      · have each : ∀ child ∈ members, ∃ inner, (∀ fuel, id.index ≤ fuel → ∀ out,
            i.collectMembers side fuel child out = some (out ++ inner)) ∧
              ∀ m, m ∈ inner ↔ Member side i child m := by
          intro child mem
          have below := hashed.child_issued issued found (by rwa [side.children_build])
          obtain ⟨inner, collected, inner_iff⟩ := ih below.2 (by omega)
          exact ⟨inner, fun fuel enough => collected fuel (by omega), inner_iff⟩
        obtain ⟨all, folded, all_iff⟩ := foldlM_collect each
        refine ⟨all, answers fun fuel enough out => ?_, fun m => ?_⟩
        · rw [collectMembers, found, Option.bind_some, if_neg (side.build_ne_neutral members),
            side.parts_build]
          exact folded fuel enough out
        · rw [all_iff, member_build_iff found]
      · refine ⟨[id], answers fun fuel _ out => ?_, fun m => ?_⟩
        · rw [collectMembers, found, Option.bind_some, if_neg pushed.1, noParts]
        · rw [List.mem_singleton, member_self_iff found pushed]

/-- `make_union` and `make_intersection` build the canonical combination. -/
theorem makeCombined_spec (side : Side) (hashed : i.HashConsed) {members : List TypeId}
    (issued : ∀ m ∈ members, i.Issued m) :
    ∃ r j, (∀ fuel, (∀ m ∈ members, m.index < fuel) →
      makeCombined side fuel i members = some (r, j)) ∧ Combines side i (· ∈ members) r j := by
  by_cases absorbed : (members.any fun m => i.get m = some side.absorbing) = true
  · obtain ⟨m, mem, found⟩ := List.any_eq_true.mp absorbed
    refine ⟨i.absorbing side, i, ?_, .absorbed mem (of_decide_eq_true found)⟩
    intro fuel _
    rw [makeCombined, if_pos absorbed]
  · have linear : LinearOn i.Issued i.order := hashed.order_linear.mono fun m holds =>
      hashed.issued_lt holds
    obtain ⟨sorted, sortedEq, perm, isSorted⟩ := sortBy_spec (P := i.Issued) linear
      (fun a b _ _ => rfl) issued
    refine ⟨(i.internCombined side (dedupAdjacent sorted)).1,
      (i.internCombined side (dedupAdjacent sorted)).2, ?_, .sorted ?_ ?_ ?_⟩
    · intro fuel enough
      have sameOrder : sortBy (i.cmp fuel) members =
          sortBy (fun a b => some (i.order a b)) members := by
        apply sortBy_congr
        intro a aMem b bMem
        exact (hashed.cmp_eq (hashed.issued_lt (issued a aMem)) (hashed.issued_lt (issued b bMem))
          (enough a aMem)).1
      rw [makeCombined, if_neg absorbed, sameOrder, sortedEq]
      rfl
    · intro m mem found
      exact absorbed (List.any_eq_true.mpr ⟨m, mem, decide_eq_true found⟩)
    · exact increasing_dedupAdjacent linear (fun m mem => issued m (perm.mem_iff.mp mem)) isSorted
    · intro m
      rw [mem_dedupAdjacent, perm.mem_iff]

/-! ## `join` answers -/

theorem asDynamic_eq {id facet : TypeId} (found : i.get id = some (.dynamic facet)) :
    i.asDynamic id = some facet := by
  rw [asDynamic, found]

theorem asDynamic_eq_none {id : TypeId} {ty : Ty} (found : i.get id = some ty)
    (plain : ty.Plain) : i.asDynamic id = none := by
  rw [asDynamic, found]
  cases ty with
  | dynamic facet => exact absurd rfl (plain.2.2 facet)
  | _ => rfl

/-- A carrier that is not absorbed is `Dynamic` or plain. -/
theorem dynamic_or_plain {ty : Ty} (notTop : ty ≠ .top) (notBottom : ty ≠ .bottom) :
    (∃ facet, ty = .dynamic facet) ∨ ty.Plain := by
  cases ty with
  | dynamic facet => exact Or.inl ⟨facet, rfl⟩
  | _ => exact Or.inr ⟨notTop, notBottom, by simp⟩

/-- One unfolding of `join`, where neither side absorbs the other. -/
theorem join_succ_of_distinct {a b : TypeId} {ta tb : Ty} (fuel : Nat) (distinct : a ≠ b)
    (aFound : i.get a = some ta) (bFound : i.get b = some tb) (aBottom : ta ≠ .bottom)
    (bBottom : tb ≠ .bottom) (aTop : ta ≠ .top) (bTop : tb ≠ .top) :
    join (fuel + 1) i a b =
      match i.asDynamic a, i.asDynamic b with
      | some fa, some fb => (join fuel i fa fb).map fun (facet, i) => i.intern (.dynamic facet)
      | some fa, none => (join fuel i fa b).map fun (facet, i) => i.intern (.dynamic facet)
      | none, some fb => (join fuel i a fb).map fun (facet, i) => i.intern (.dynamic facet)
      | none, none =>
          (i.collectUnionMembers fuel a []).bind fun members =>
            (i.collectUnionMembers fuel b members).bind fun members =>
              makeUnion fuel i members := by
  rw [join, if_neg distinct]
  simp only [isBottom, isPlainTop, aFound, bFound, Option.some.injEq, aBottom, bBottom, aTop, bTop]
  rfl

/-- `join` returns on issued handles, along one of the runs. -/
theorem exists_joins (hashed : i.HashConsed) {a b : TypeId} (aIssued : i.Issued a)
    (bIssued : i.Issued b) :
    ∃ r j, (∀ fuel, a.index + b.index + 1 < fuel → join fuel i a b = some (r, j)) ∧
      Joins i a b r j := by
  obtain ⟨n, bound⟩ : ∃ n, a.index + b.index < n := ⟨a.index + b.index + 1, Nat.lt_succ_self _⟩
  induction n generalizing a b with
  | zero => exact absurd bound (Nat.not_lt_zero _)
  | succ n ih =>
      obtain ⟨ta, aFound⟩ := hashed.exists_get_of_issued aIssued
      obtain ⟨tb, bFound⟩ := hashed.exists_get_of_issued bIssued
      -- one unfolding of `join`, for any fuel that is not exhausted
      have answers {r : TypeId} {j : Interner}
          (answer : ∀ fuel, a.index + b.index < fuel → join (fuel + 1) i a b = some (r, j)) :
          ∀ fuel, a.index + b.index + 1 < fuel → join fuel i a b = some (r, j) := by
        intro fuel enough
        obtain ⟨fuel, rfl⟩ := Nat.exists_eq_succ_of_ne_zero (Nat.ne_zero_of_lt enough)
        exact answer fuel (by omega)
      by_cases distinct : a = b
      · subst distinct
        exact ⟨a, i, answers fun fuel _ => by simp [join], .same⟩
      by_cases aBottom : ta = .bottom
      · subst aBottom
        exact ⟨b, i, answers fun fuel _ => by simp [join, distinct, isBottom, aFound],
          .bottomLeft aFound⟩
      by_cases bBottom : tb = .bottom
      · subst bBottom
        refine ⟨a, i, answers fun fuel _ => ?_, .bottomRight bFound⟩
        simp [join, distinct, isBottom, aFound, bFound, aBottom]
      by_cases anyTop : ta = .top ∨ tb = .top
      · refine ⟨i.top, i, answers fun fuel _ => ?_, .top ?_⟩
        · rcases anyTop with rfl | rfl
          · simp [join, distinct, isBottom, isPlainTop, aFound, bFound, bBottom]
          · simp [join, distinct, isBottom, isPlainTop, aFound, bFound, aBottom]
        · rcases anyTop with rfl | rfl
          · exact Or.inl aFound
          · exact Or.inr bFound
      rw [not_or] at anyTop
      have unfolded (fuel : Nat) :=
        join_succ_of_distinct fuel distinct aFound bFound aBottom bBottom anyTop.1 anyTop.2
      rcases dynamic_or_plain anyTop.1 aBottom with ⟨fa, rfl⟩ | aPlain
      · have faIssued := hashed.child_issued aIssued aFound (List.mem_singleton_self fa)
        rcases dynamic_or_plain anyTop.2 bBottom with ⟨fb, rfl⟩ | bPlain
        · have fbIssued := hashed.child_issued bIssued bFound (List.mem_singleton_self fb)
          obtain ⟨facet, j, answer, facets⟩ := ih faIssued.2 fbIssued.2 (by omega)
          refine ⟨_, _, answers fun fuel enough => ?_, .dynamic aFound bFound facets⟩
          simp [unfolded, asDynamic_eq aFound, asDynamic_eq bFound, answer fuel (by omega)]
        · obtain ⟨facet, j, answer, facets⟩ := ih faIssued.2 bIssued (by omega)
          refine ⟨_, _, answers fun fuel enough => ?_, .dynamicLeft aFound bFound bPlain facets⟩
          simp [unfolded, asDynamic_eq aFound, asDynamic_eq_none bFound bPlain,
            answer fuel (by omega)]
      · rcases dynamic_or_plain anyTop.2 bBottom with ⟨fb, rfl⟩ | bPlain
        · have fbIssued := hashed.child_issued bIssued bFound (List.mem_singleton_self fb)
          obtain ⟨facet, j, answer, facets⟩ := ih aIssued fbIssued.2 (by omega)
          refine ⟨_, _, answers fun fuel enough => ?_, .dynamicRight aFound aPlain bFound facets⟩
          simp [unfolded, asDynamic_eq_none aFound aPlain, asDynamic_eq bFound,
            answer fuel (by omega)]
        · obtain ⟨as, aCollected, as_iff⟩ := collectMembers_spec .union hashed aIssued
          obtain ⟨bs, bCollected, bs_iff⟩ := collectMembers_spec .union hashed bIssued
          have bounds : ∀ m ∈ as ++ bs, i.Issued m ∧ m.index ≤ a.index + b.index := by
            intro m mem
            rcases List.mem_append.mp mem with inA | inB
            · have bound := ((as_iff m).mp inA).issued hashed aIssued
              exact ⟨bound.1, by omega⟩
            · have bound := ((bs_iff m).mp inB).issued hashed bIssued
              exact ⟨bound.1, by omega⟩
          obtain ⟨r, j, answer, unites⟩ :=
            makeCombined_spec .union hashed fun m mem => (bounds m mem).1
          refine ⟨r, j, answers fun fuel enough => ?_,
            .union distinct aFound aPlain bFound bPlain ?_⟩
          · have made := answer fuel fun m mem => Nat.lt_of_le_of_lt (bounds m mem).2 enough
            simp [unfolded, asDynamic_eq_none aFound aPlain, asDynamic_eq_none bFound bPlain,
              collectUnionMembers, aCollected fuel (by omega),
              bCollected fuel (by omega), makeUnion, made]
          · simpa [as_iff, bs_iff] using unites

/-- An answer of `join` is one of the runs. -/
theorem joins_of_returns (hashed : i.HashConsed) {a b r : TypeId} (aIssued : i.Issued a)
    (bIssued : i.Issued b) (returns : Returns (fun fuel => join fuel i a b) (r, j)) :
    Joins i a b r j := by
  obtain ⟨r', j', answer, joins⟩ := exists_joins hashed aIssued bIssued
  have same := returns.unique ⟨_, answer⟩
  obtain ⟨rfl, rfl⟩ := Prod.mk.inj same
  exact joins

/-! ## What a run does to the interner -/

namespace Coherent

theorem get_neutral (coherent : i.Coherent) (side : Side) :
    i.get (i.neutral side) = some side.neutral := by
  cases side with
  | union => exact coherent.get_bottom
  | intersection => exact coherent.get_top

theorem get_absorbing (coherent : i.Coherent) (side : Side) :
    i.get (i.absorbing side) = some side.absorbing := by
  cases side with
  | union => exact coherent.get_top
  | intersection => exact coherent.get_bottom

theorem issued_neutral (coherent : i.Coherent) (side : Side) : i.Issued (i.neutral side) := by
  cases side with
  | union => exact coherent.issued_bottom
  | intersection => exact coherent.issued_top

theorem issued_absorbing (coherent : i.Coherent) (side : Side) :
    i.Issued (i.absorbing side) := by
  cases side with
  | union => exact coherent.issued_top
  | intersection => exact coherent.issued_bottom

end Coherent

theorem Combines.run {members : TypeId → Prop} {r : TypeId} (combines : Combines side i members r j)
    (coherent : i.Coherent) (issued : ∀ m, members m → i.Issued m) :
    Run i j ∧ j.Issued r := by
  cases combines with
  | absorbed => exact ⟨.refl, coherent.issued_absorbing side⟩
  | @sorted ids _ _ mem_iff =>
      match ids with
      | [] => exact ⟨.refl, coherent.issued_neutral side⟩
      | [m] => exact ⟨.refl, issued m ((mem_iff m).mp List.mem_cons_self)⟩
      | first :: second :: rest =>
          have run : Run i (i.intern (side.build (first :: second :: rest))).2 := by
            apply Run.intern .refl
            rw [side.children_build]
            exact fun m mem => issued m ((mem_iff m).mp mem)
          exact ⟨run, coherent.issued_intern _⟩

/-- The handle is the combination of the members, collapsed the way
`internCombined` does it. -/
def IsCombined (side : Side) (i : Interner) (id : TypeId) : List TypeId → Prop
  | [] => i.get id = some side.neutral
  | [member] => id = member
  | members => i.get id = some (side.build members)

namespace IsCombined

variable {id : TypeId} {ids : List TypeId}

theorem run (combined : IsCombined side i id ids) (run : Run i j) : IsCombined side j id ids := by
  match ids with
  | [] => exact run.get_eq combined
  | [_] => exact combined
  | _ :: _ :: _ => exact run.get_eq combined

theorem unique (hashed : i.HashConsed) {a b : TypeId} (first : IsCombined side i a ids)
    (second : IsCombined side i b ids) : a = b := by
  match ids with
  | [] => exact hashed.get_injective first second
  | [_] => exact Eq.trans first (Eq.symm second)
  | _ :: _ :: _ => exact hashed.get_injective first second

/-- `internCombined` makes the combination of the members. -/
theorem of_intern (coherent : i.Coherent) (fits : (i.internCombined side ids).2.Fits) :
    IsCombined side (i.internCombined side ids).2 (i.internCombined side ids).1 ids := by
  match ids with
  | [] => exact coherent.get_neutral side
  | [_] => rfl
  | _ :: _ :: _ => exact coherent.get_intern _ fits

end IsCombined

theorem Joins.run {a b r : TypeId} (joins : Joins i a b r j) (coherent : i.Coherent)
    (aIssued : i.Issued a) (bIssued : i.Issued b) : Run i j ∧ j.Issued r := by
  have facetIssued {i j : Interner} {facet : TypeId} (before : i.Coherent)
      (facets : Run i j ∧ j.Issued facet) :
      Run i (j.intern (.dynamic facet)).2 ∧
        (j.intern (.dynamic facet)).2.Issued (j.intern (.dynamic facet)).1 := by
    refine ⟨facets.1.intern _ ?_, (facets.1.coherent before).issued_intern _⟩
    intro child mem
    obtain rfl := List.mem_singleton.mp mem
    exact facets.2
  induction joins with
  | same => exact ⟨.refl, aIssued⟩
  | bottomLeft => exact ⟨.refl, bIssued⟩
  | bottomRight => exact ⟨.refl, aIssued⟩
  | top => exact ⟨.refl, coherent.issued_top⟩
  | dynamic aFound bFound _ ih =>
      exact facetIssued coherent (ih
        (coherent.child_issued aIssued aFound (List.mem_singleton_self _)).2
        (coherent.child_issued bIssued bFound (List.mem_singleton_self _)).2)
  | dynamicLeft aFound _ _ _ ih =>
      exact facetIssued coherent (ih
        (coherent.child_issued aIssued aFound (List.mem_singleton_self _)).2 bIssued)
  | dynamicRight _ _ bFound _ ih =>
      exact facetIssued coherent (ih aIssued
        (coherent.child_issued bIssued bFound (List.mem_singleton_self _)).2)
  | union _ _ _ _ _ unites =>
      apply unites.run coherent
      rintro m (inA | inB)
      · exact (inA.issued coherent.toHashConsed aIssued).1
      · exact (inB.issued coherent.toHashConsed bIssued).1

end Interner

end Rigor.Types
