import Rigor.Types.Meaning

/-!
# What `normalize` computes

`NormalForm i a r` says which type `r` the normal form of `a` is, without the
order in which `normalize` interns.  A type has one normal form, `normalize`
returns it, and a normal form is canonical all the way down.
-/

namespace Rigor.Types

open Rigor.Library.Fuel Rigor.Library.Order

/-- The carriers that `normalize` returns as they are. -/
def Carrier.Leaf (ty : Ty) : Prop :=
  (∀ facet, ty ≠ .dynamic facet) ∧ ∀ (side : Side) (members : List TypeId), ty ≠ side.build members

namespace Side

theorem build_eq_build {side other : Side} {members others : List TypeId}
    (same : side.build members = other.build others) : side = other ∧ members = others := by
  cases side <;> cases other <;> simp_all

theorem neutral_leaf (side : Side) : side.neutral.Leaf := by
  constructor
  · cases side <;> simp
  · intro other members
    cases side <;> cases other <;> simp

theorem absorbing_leaf (side : Side) : side.absorbing.Leaf := by
  constructor
  · cases side <;> simp
  · intro other members
    cases side <;> cases other <;> simp

theorem absorbing_pushed (side : Side) : side.Pushed side.absorbing := by
  cases side <;> simp [Pushed]

theorem build_ne_absorbing (side : Side) (members : List TypeId) :
    side.build members ≠ side.absorbing := by
  cases side <;> simp

theorem dynamic_pushed (side : Side) (facet : TypeId) : side.Pushed (.dynamic facet) := by
  cases side <;> simp [Pushed]

/-- The combinations of the other side are pushed. -/
theorem build_pushed {side other : Side} (distinct : side ≠ other) (members : List TypeId) :
    side.Pushed (other.build members) := by
  cases side <;> cases other <;> simp_all [Pushed]

end Side

namespace Interner

variable {i j : Interner} {side : Side}

/-- The combination of pushed members, in canonical order. -/
structure Canonical (side : Side) (i : Interner) (id : TypeId) (ids : List TypeId) : Prop where
  increasing : Increasing i.order ids
  pushed : ∀ m ∈ ids, ∃ ty, i.get m = some ty ∧ side.Pushed ty ∧ ty ≠ side.absorbing
  isCombined : IsCombined side i id ids

/-- The combination of a set of pushed members, absorbed or canonical. -/
def Collapses (side : Side) (i : Interner) (members : TypeId → Prop) (id : TypeId) : Prop :=
  i.get id = some side.absorbing ∧ (∃ m, members m ∧ i.get m = some side.absorbing) ∨
    ∃ ids, Canonical side i id ids ∧ ∀ m, m ∈ ids ↔ members m

/-- `r` is the normal form of a type. -/
inductive NormalForm (i : Interner) : TypeId → TypeId → Prop
  | leaf {id : TypeId} {ty : Ty} (found : i.get id = some ty) (leaf : ty.Leaf) : NormalForm i id id
  | dynamic {id facet f r : TypeId} (found : i.get id = some (.dynamic facet))
      (inner : NormalForm i facet f) (result : i.get r = some (.dynamic f)) : NormalForm i id r
  | combined {side : Side} {id r : TypeId} {members : List TypeId} {form : TypeId → TypeId}
      (found : i.get id = some (side.build members)) (each : ∀ m ∈ members, NormalForm i m (form m))
      (result : Collapses side i (fun x => ∃ m ∈ members, Member side i (form m) x) r) :
      NormalForm i id r

/-- Canonical all the way down. -/
inductive Normal (i : Interner) : TypeId → Prop
  | leaf {id : TypeId} {ty : Ty} (found : i.get id = some ty) (leaf : ty.Leaf) : Normal i id
  | dynamic {id facet : TypeId} (found : i.get id = some (.dynamic facet))
      (inner : Normal i facet) : Normal i id
  | combined {side : Side} {id : TypeId} {members : List TypeId}
      (found : i.get id = some (side.build members)) (canonical : Canonical side i id members)
      (each : ∀ m ∈ members, Normal i m) : Normal i id

/-- A handle keeps its members. -/
theorem Run.member_iff (run : Run i j) (before : i.Coherent) {id x : TypeId}
    (inRange : i.InRange id) : Member side j id x ↔ Member side i id x := by
  obtain ⟨n, bound⟩ : ∃ n, id.index < n := ⟨id.index + 1, Nat.lt_succ_self _⟩
  induction n generalizing id with
  | zero => exact absurd bound (Nat.not_lt_zero _)
  | succ n ih =>
      obtain ⟨ty, found⟩ := exists_get inRange
      have later := run.get_eq found
      rcases side.kinds ty with rfl | ⟨members, rfl⟩ | ⟨pushed, -⟩
      · exact iff_of_false (member_neutral later) (member_neutral found)
      · rw [member_build_iff later, member_build_iff found]
        apply exists_congr
        intro child
        apply and_congr_right
        intro mem
        have below := before.child_inRange found (by rwa [side.children_build])
        exact ih below.2 (by omega)
      · rw [member_self_iff later pushed, member_self_iff found pushed]

/-! ## Canonical combinations -/

namespace Canonical

variable {id : TypeId} {ids : List TypeId}

theorem inRange (canonical : Canonical side i id ids) : ∀ m ∈ ids, i.InRange m := by
  intro m mem
  obtain ⟨ty, found, -⟩ := canonical.pushed m mem
  exact get_eq_some_lt found

theorem run (canonical : Canonical side i id ids) (run : Run i j) (before : i.Coherent) :
    Canonical side j id ids where
  increasing := run.increasing before canonical.inRange canonical.increasing
  pushed m mem := by
    obtain ⟨ty, found, pushed⟩ := canonical.pushed m mem
    exact ⟨ty, run.get_eq found, pushed⟩
  isCombined := canonical.isCombined.run run

theorem empty (found : i.get id = some side.neutral) : Canonical side i id [] :=
  ⟨List.Pairwise.nil, by simp, found⟩

theorem singleton {ty : Ty} (found : i.get id = some ty) (pushed : side.Pushed ty)
    (kept : ty ≠ side.absorbing) : Canonical side i id [id] :=
  ⟨List.pairwise_singleton _ _, by simpa using ⟨ty, found, pushed, kept⟩, rfl⟩

/-- The members that a canonical combination is collected into. -/
theorem member_iff (canonical : Canonical side i id ids) {m : TypeId} :
    Member side i id m ↔ m ∈ ids := by
  have isCombined := canonical.isCombined
  match ids with
  | [] => simpa using member_neutral isCombined
  | [member] =>
      obtain rfl : id = member := isCombined
      obtain ⟨ty, found, pushed, -⟩ := canonical.pushed id List.mem_cons_self
      rw [member_self_iff found pushed, List.mem_singleton]
  | first :: second :: rest =>
      rw [member_build_iff isCombined]
      constructor
      · rintro ⟨child, childMem, member⟩
        obtain ⟨ty, found, pushed, -⟩ := canonical.pushed child childMem
        rwa [(member_self_iff found pushed).mp member]
      · intro mem
        obtain ⟨ty, found, pushed, -⟩ := canonical.pushed m mem
        exact ⟨m, mem, .self found pushed⟩

theorem get_ne (canonical : Canonical side i id ids) : i.get id ≠ some side.absorbing := by
  intro absorbing
  have isCombined := canonical.isCombined
  match ids with
  | [] =>
      have found : i.get id = some side.neutral := isCombined
      rw [found, Option.some.injEq] at absorbing
      exact side.absorbing_pushed.1 absorbing.symm
  | [member] =>
      obtain rfl : id = member := isCombined
      obtain ⟨ty, found, -, kept⟩ := canonical.pushed id List.mem_cons_self
      exact kept (Option.some.inj (found.symm.trans absorbing))
  | first :: second :: rest =>
      have found : i.get id = some (side.build (first :: second :: rest)) := isCombined
      exact side.build_ne_absorbing _ (Option.some.inj (found.symm.trans absorbing))

/-- A pushed canonical combination is its only member. -/
theorem eq_singleton (canonical : Canonical side i id ids) {ty : Ty} (found : i.get id = some ty)
    (pushed : side.Pushed ty) : ids = [id] := by
  have isCombined := canonical.isCombined
  match ids with
  | [] =>
      have neutral : i.get id = some side.neutral := isCombined
      exact absurd (Option.some.inj (found.symm.trans neutral)) pushed.1
  | [member] =>
      obtain rfl : id = member := isCombined
      rfl
  | first :: second :: rest =>
      have combined : i.get id = some (side.build (first :: second :: rest)) := isCombined
      exact absurd (Option.some.inj (found.symm.trans combined)) (pushed.2 _)

theorem nodup (canonical : Canonical side i id ids) (hashed : i.HashConsed) : ids.Nodup :=
  canonical.increasing.nodup hashed.order_linear canonical.inRange

/-- Canonical combinations of the same members are one handle. -/
theorem unique (hashed : i.HashConsed) {other : TypeId} {others : List TypeId}
    (canonical : Canonical side i id ids) (canonical' : Canonical side i other others)
    (same : ∀ m, m ∈ ids ↔ m ∈ others) : id = other := by
  obtain rfl : ids = others :=
    canonical.increasing.ext hashed.order_linear canonical.inRange canonical'.inRange
      canonical'.increasing same
  exact canonical.isCombined.unique hashed canonical'.isCombined

end Canonical

namespace Collapses

variable {members others : TypeId → Prop} {id other : TypeId}

theorem congr (collapses : Collapses side i members id) (same : ∀ m, members m ↔ others m) :
    Collapses side i others id := by
  rwa [← funext fun m => propext (same m)]

theorem run (collapses : Collapses side i members id) (run : Run i j) (before : i.Coherent) :
    Collapses side j members id := by
  rcases collapses with ⟨absorbing, m, mem, found⟩ | ⟨ids, canonical, mem_iff⟩
  · exact Or.inl ⟨run.get_eq absorbing, m, mem, run.get_eq found⟩
  · exact Or.inr ⟨ids, canonical.run run before, mem_iff⟩

/-- A set of members collapses to one handle. -/
theorem unique (hashed : i.HashConsed) (collapses : Collapses side i members id)
    (collapses' : Collapses side i members other) : id = other := by
  have kept {ids : List TypeId} {r m : TypeId} (canonical : Canonical side i r ids)
      (mem_iff : ∀ m, m ∈ ids ↔ members m) (mem : members m) :
      i.get m ≠ some side.absorbing := by
    intro absorbing
    obtain ⟨ty, found, -, kept⟩ := canonical.pushed m ((mem_iff m).mpr mem)
    exact kept (Option.some.inj (found.symm.trans absorbing))
  rcases collapses with ⟨absorbing, m, mem, found⟩ | ⟨ids, canonical, mem_iff⟩
  · rcases collapses' with ⟨absorbing', -⟩ | ⟨ids', canonical', mem_iff'⟩
    · exact hashed.get_injective absorbing absorbing'
    · exact absurd found (kept canonical' mem_iff' mem)
  · rcases collapses' with ⟨-, m, mem, found⟩ | ⟨ids', canonical', mem_iff'⟩
    · exact absurd found (kept canonical mem_iff mem)
    · exact canonical.unique hashed canonical' fun m => (mem_iff m).trans (mem_iff' m).symm

/-- A pushed type is the combination of itself. -/
theorem self {ty : Ty} (found : i.get id = some ty) (pushed : side.Pushed ty) :
    Collapses side i (Member side i id) id := by
  by_cases absorbing : ty = side.absorbing
  · subst absorbing
    exact Or.inl ⟨found, id, .self found pushed, found⟩
  · have canonical : Canonical side i id [id] := .singleton found pushed absorbing
    exact Or.inr ⟨[id], canonical, fun m => canonical.member_iff.symm⟩

end Collapses

/-- What `make_union` and `make_intersection` build is the combination. -/
theorem Combines.collapses {members : TypeId → Prop} {r : TypeId}
    (combines : Combines side i members r j) (coherent : i.Coherent)
    (issued : ∀ m, members m → i.Issued m)
    (pushed : ∀ m, members m → ∃ ty, i.get m = some ty ∧ side.Pushed ty) (fits : j.Fits) :
    Collapses side j members r := by
  have run := (combines.run coherent issued).1
  cases combines with
  | @absorbed m mem found => exact Or.inl ⟨coherent.get_absorbing side, m, mem, found⟩
  | @sorted ids kept increasing mem_iff =>
      have inRange : ∀ m ∈ ids, i.InRange m := fun m mem =>
        coherent.issued_lt (issued m ((mem_iff m).mp mem))
      refine Or.inr ⟨ids, ⟨run.increasing coherent inRange increasing, ?_, ?_⟩, mem_iff⟩
      · intro m mem
        obtain ⟨ty, found, isPushed⟩ := pushed m ((mem_iff m).mp mem)
        refine ⟨ty, run.get_eq found, isPushed, ?_⟩
        rintro rfl
        exact kept m ((mem_iff m).mp mem) found
      · exact .of_intern coherent fits

/-! ## Normal types -/

namespace Normal

variable {id : TypeId}

theorem exists_get (normal : Normal i id) : ∃ ty, i.get id = some ty := by
  cases normal with
  | leaf found => exact ⟨_, found⟩
  | dynamic found => exact ⟨_, found⟩
  | combined found => exact ⟨_, found⟩

theorem member {m : TypeId} (normal : Normal i id) (member : Member side i id m) :
    Normal i m := by
  induction member with
  | self => exact normal
  | nested found mem _ ih =>
      apply ih
      cases normal with
      | leaf other leaf =>
          rw [found, Option.some.injEq] at other
          exact absurd other.symm (leaf.2 side _)
      | dynamic other =>
          rw [found, Option.some.injEq] at other
          exact absurd other.symm ((side.dynamic_pushed _).2 _)
      | combined other _ each =>
          rw [found, Option.some.injEq] at other
          obtain ⟨-, rfl⟩ := Side.build_eq_build other
          exact each _ mem

/-- A normal type is the combination of its own members, on either side. -/
theorem collapses (normal : Normal i id) (side : Side) :
    Collapses side i (Member side i id) id := by
  cases normal with
  | @leaf _ ty found leaf =>
      rcases side.kinds ty with rfl | ⟨members, rfl⟩ | ⟨pushed, -⟩
      · have canonical : Canonical side i id [] := .empty found
        exact Or.inr ⟨[], canonical, fun m => canonical.member_iff.symm⟩
      · exact absurd rfl (leaf.2 side members)
      · exact .self found pushed
  | dynamic found => exact .self found (side.dynamic_pushed _)
  | @combined other _ members found canonical =>
      by_cases same : side = other
      · subst same
        exact Or.inr ⟨members, canonical, fun m => canonical.member_iff.symm⟩
      · exact .self found (Side.build_pushed same members)

theorem run (normal : Normal i id) (run : Run i j) (before : i.Coherent) : Normal j id := by
  induction normal with
  | leaf found leaf => exact .leaf (run.get_eq found) leaf
  | dynamic found _ ih => exact .dynamic (run.get_eq found) ih
  | combined found canonical _ ih => exact .combined (run.get_eq found) (canonical.run run before) ih

end Normal

namespace NormalForm

variable {a r s : TypeId}

/-- A normal form is normal. -/
theorem normal (form : NormalForm i a r) : Normal i r := by
  induction form with
  | leaf found leaf => exact .leaf found leaf
  | dynamic _ _ result ih => exact .dynamic result ih
  | @combined side id r members form _ _ result ih =>
      rcases result with ⟨absorbing, -⟩ | ⟨ids, canonical, mem_iff⟩
      · exact .leaf absorbing side.absorbing_leaf
      · have each : ∀ x ∈ ids, Normal i x := by
          intro x mem
          obtain ⟨m, mMem, member⟩ := (mem_iff x).mp mem
          exact (ih m mMem).member member
        have isCombined := canonical.isCombined
        match ids with
        | [] => exact .leaf isCombined side.neutral_leaf
        | [x] =>
            obtain rfl : r = x := isCombined
            exact each r List.mem_cons_self
        | first :: second :: rest => exact .combined isCombined canonical each

theorem of_dynamic {facet : TypeId} (form : NormalForm i a r)
    (found : i.get a = some (.dynamic facet)) :
    ∃ f, NormalForm i facet f ∧ i.get r = some (.dynamic f) := by
  cases form with
  | leaf other leaf =>
      rw [found, Option.some.injEq] at other
      exact absurd other.symm (leaf.1 facet)
  | dynamic other inner result =>
      rw [found, Option.some.injEq, Carrier.dynamic.injEq] at other
      subst other
      exact ⟨_, inner, result⟩
  | combined other =>
      rw [found, Option.some.injEq] at other
      exact absurd other ((Side.dynamic_pushed _ facet).2 _)

theorem of_combined {members : List TypeId} (form : NormalForm i a r)
    (found : i.get a = some (side.build members)) :
    ∃ forms : TypeId → TypeId, (∀ m ∈ members, NormalForm i m (forms m)) ∧
      Collapses side i (fun x => ∃ m ∈ members, Member side i (forms m) x) r := by
  cases form with
  | leaf other leaf =>
      rw [found, Option.some.injEq] at other
      exact absurd other.symm (leaf.2 side members)
  | dynamic other =>
      rw [found, Option.some.injEq] at other
      exact absurd other.symm ((side.dynamic_pushed _).2 members)
  | combined other each result =>
      rw [found, Option.some.injEq] at other
      obtain ⟨rfl, rfl⟩ := Side.build_eq_build other
      exact ⟨_, each, result⟩

/-- A type has one normal form. -/
theorem unique (hashed : i.HashConsed) (form : NormalForm i a r) (form' : NormalForm i a s) :
    r = s := by
  induction form generalizing s with
  | leaf found leaf =>
      cases form' with
      | leaf => rfl
      | dynamic other =>
          rw [found, Option.some.injEq] at other
          exact absurd other (leaf.1 _)
      | combined other =>
          rw [found, Option.some.injEq] at other
          exact absurd other (leaf.2 _ _)
  | dynamic found _ result ih =>
      obtain ⟨f, inner, result'⟩ := form'.of_dynamic found
      rw [← ih inner] at result'
      exact hashed.get_injective result result'
  | combined found _ result ih =>
      obtain ⟨forms, each', result'⟩ := form'.of_combined found
      apply result.unique hashed (result'.congr _)
      intro x
      apply exists_congr
      intro m
      apply and_congr_right
      intro mem
      rw [ih m mem (each' m mem)]

theorem run (form : NormalForm i a r) (run : Run i j) (before : i.Coherent) :
    NormalForm j a r := by
  induction form with
  | leaf found leaf => exact .leaf (run.get_eq found) leaf
  | dynamic found _ result ih => exact .dynamic (run.get_eq found) ih (run.get_eq result)
  | combined found each result ih =>
      apply NormalForm.combined (run.get_eq found) ih
      apply (result.run run before).congr
      intro x
      apply exists_congr
      intro m
      apply and_congr_right
      intro mem
      obtain ⟨ty, formFound⟩ := (each m mem).normal.exists_get
      exact (run.member_iff before (get_eq_some_lt formFound)).symm

end NormalForm

end Interner

end Rigor.Types
