import Rigor.Types.JoinLaws
import Rigor.Types.Relations

/-!
# `subtype` is inclusion of atoms

Every type, normalized or not, has a set of atoms, found through unions and
`Dynamic` wrappers.  `subtype` answers `yes` exactly when the right side has the
atom `top` or has every atom of the left side; `join` unites the atoms, up to
absorption by `top`.
-/

namespace Rigor.Types

open Rigor.Library.Fuel Rigor.Library.Order

/-- The carriers that are their own atom. -/
def Carrier.Elementary (ty : Ty) : Prop :=
  ty.Pushed ∧ ∀ facet, ty ≠ .dynamic facet

namespace Interner

variable {i j : Interner}

/-- `x` is an atom of `id`. -/
inductive Atom (i : Interner) : TypeId → TypeId → Prop
  | self {id : TypeId} {ty : Ty} (found : i.get id = some ty) (elementary : ty.Elementary) :
      Atom i id id
  | dynamic {id facet x : TypeId} (found : i.get id = some (.dynamic facet))
      (inner : Atom i facet x) : Atom i id x
  | union {id m x : TypeId} {members : List TypeId} (found : i.get id = some (.union members))
      (mem : m ∈ members) (inner : Atom i m x) : Atom i id x

/-- Inclusion of atoms, with `top` above everything. -/
def Below (i : Interner) (a b : TypeId) : Prop :=
  Atom i b i.top ∨ ∀ x, Atom i a x → Atom i b x

/-! ## The atoms of a carrier -/

section Carriers

variable {id x : TypeId}

theorem atom_self_iff {ty : Ty} (found : i.get id = some ty) (elementary : ty.Elementary) :
    Atom i id x ↔ x = id := by
  constructor
  · intro atom
    cases atom with
    | self => rfl
    | dynamic other =>
        rw [found, Option.some.injEq] at other
        exact absurd other (elementary.2 _)
    | union other =>
        rw [found, Option.some.injEq] at other
        exact absurd other (elementary.1.2 _)
  · rintro rfl
    exact .self found elementary

theorem atom_bottom (found : i.get id = some .bottom) : ¬ Atom i id x := by
  intro atom
  cases atom with
  | self other elementary =>
      rw [found, Option.some.injEq] at other
      exact elementary.1.1 other.symm
  | dynamic other => simp [found] at other
  | union other => simp [found] at other

theorem atom_dynamic_iff {facet : TypeId} (found : i.get id = some (.dynamic facet)) :
    Atom i id x ↔ Atom i facet x := by
  constructor
  · intro atom
    cases atom with
    | self other elementary =>
        rw [found, Option.some.injEq] at other
        exact absurd other.symm (elementary.2 facet)
    | dynamic other inner =>
        rw [found, Option.some.injEq, Carrier.dynamic.injEq] at other
        exact other ▸ inner
    | union other => simp [found] at other
  · exact .dynamic found

theorem atom_union_iff {members : List TypeId} (found : i.get id = some (.union members)) :
    Atom i id x ↔ ∃ m ∈ members, Atom i m x := by
  constructor
  · intro atom
    cases atom with
    | self other elementary =>
        rw [found, Option.some.injEq] at other
        exact absurd other.symm (elementary.1.2 members)
    | dynamic other => simp [found] at other
    | union other mem inner =>
        rw [found, Option.some.injEq, Carrier.union.injEq] at other
        exact ⟨_, other ▸ mem, inner⟩
  · rintro ⟨m, mem, inner⟩
    exact .union found mem inner

/-- The kinds of carriers that atoms tell apart. -/
theorem Carrier.kinds (ty : Ty) :
    ty = .bottom ∨ (∃ facet, ty = .dynamic facet) ∨ (∃ members, ty = .union members) ∨
      Carrier.Elementary ty := by
  cases ty with
  | bottom => exact Or.inl rfl
  | dynamic facet => exact Or.inr (Or.inl ⟨facet, rfl⟩)
  | union members => exact Or.inr (Or.inr (Or.inl ⟨members, rfl⟩))
  | _ => exact Or.inr (Or.inr (Or.inr ⟨⟨by simp, by simp⟩, by simp⟩))

theorem Coherent.atom_top_iff (coherent : i.Coherent) : Atom i i.top x ↔ x = i.top :=
  atom_self_iff coherent.get_top ⟨⟨by simp, by simp⟩, by simp⟩

theorem atom_facet_iff : Atom i (i.facet id) x ↔ Atom i id x := by
  unfold facet
  split
  · rename_i found
    exact (atom_dynamic_iff found).symm
  · exact Iff.rfl

end Carriers

/-! ## Inclusion by carrier -/

section Inclusion

variable {a b : TypeId}

theorem below_union_left {members : List TypeId} (found : i.get a = some (.union members)) :
    Below i a b ↔ ∀ m ∈ members, Below i m b := by
  simp only [Below, atom_union_iff found]
  constructor
  · rintro (top | included) m mem
    · exact Or.inl top
    · exact Or.inr fun x atom => included x ⟨m, mem, atom⟩
  · intro each
    by_cases top : Atom i b i.top
    · exact Or.inl top
    · refine Or.inr ?_
      rintro x ⟨m, mem, atom⟩
      exact (each m mem).resolve_left top x atom

theorem below_of_elementary {ty : Ty} (found : i.get a = some ty) (elementary : ty.Elementary) :
    Below i a b ↔ Atom i b i.top ∨ Atom i b a := by
  simp only [Below, atom_self_iff found elementary, forall_eq]

theorem below_union_right {ty : Ty} {members : List TypeId} (aFound : i.get a = some ty)
    (elementary : ty.Elementary) (bFound : i.get b = some (.union members)) :
    Below i a b ↔ ∃ m ∈ members, Below i a m := by
  simp only [below_of_elementary aFound elementary, atom_union_iff bFound]
  constructor
  · rintro (⟨m, mem, atom⟩ | ⟨m, mem, atom⟩)
    · exact ⟨m, mem, Or.inl atom⟩
    · exact ⟨m, mem, Or.inr atom⟩
  · rintro ⟨m, mem, atom | atom⟩
    · exact Or.inl ⟨m, mem, atom⟩
    · exact Or.inr ⟨m, mem, atom⟩

theorem not_below_of_ne {ta tb : Ty} (coherent : i.Coherent) (aFound : i.get a = some ta)
    (aElementary : ta.Elementary) (bFound : i.get b = some tb) (distinct : a ≠ b)
    (notTop : tb ≠ .top) (bElementary : tb = .bottom ∨ tb.Elementary) : ¬ Below i a b := by
  rw [below_of_elementary aFound aElementary]
  rcases bElementary with rfl | bElementary
  · rintro (atom | atom)
    · exact atom_bottom bFound atom
    · exact atom_bottom bFound atom
  · rw [atom_self_iff bFound bElementary, atom_self_iff bFound bElementary]
    rintro (rfl | rfl)
    · exact notTop (Option.some.inj (bFound.symm.trans coherent.get_top))
    · exact distinct rfl

end Inclusion

/-! ## `subtype` decides inclusion -/

theorem HashConsed.facet_issued (hashed : i.HashConsed) {id : TypeId} (issued : i.Issued id) :
    i.Issued (i.facet id) ∧ (i.facet id ≠ id → (i.facet id).index < id.index) ∧
      (i.facet id).index ≤ id.index := by
  unfold facet
  split
  · rename_i f found
    have below := hashed.child_issued issued found (List.mem_singleton_self f)
    exact ⟨below.2, fun _ => below.1, Nat.le_of_lt below.1⟩
  · exact ⟨issued, fun differs => absurd rfl differs, Nat.le_refl _⟩

/-- Folding the answers of members. -/
theorem foldlM_certainty {query : TypeId → Option Relation} {answer : TypeId → Relation}
    {combine : Certainty → Certainty → Certainty} {members : List TypeId}
    (answered : ∀ m ∈ members, query m = some (answer m)) (acc : Certainty) :
    members.foldlM (fun acc m => (query m).map fun r => combine acc r.certainty) acc =
      some (members.foldl (fun acc m => combine acc (answer m).certainty) acc) := by
  induction members generalizing acc with
  | nil => rfl
  | cons m rest ih =>
      rw [List.forall_mem_cons] at answered
      simp [answered.1, ih answered.2]

theorem foldl_and_eq_yes {answer : TypeId → Relation} {members : List TypeId} {acc : Certainty} :
    members.foldl (fun acc m => acc.and (answer m).certainty) acc = .yes ↔
      acc = .yes ∧ ∀ m ∈ members, (answer m).certainty = .yes := by
  induction members generalizing acc with
  | nil => simp
  | cons m rest ih => simp [ih, and_assoc]

theorem foldl_or_eq_yes {answer : TypeId → Relation} {members : List TypeId} {acc : Certainty} :
    members.foldl (fun acc m => acc.or (answer m).certainty) acc = .yes ↔
      acc = .yes ∨ ∃ m ∈ members, (answer m).certainty = .yes := by
  induction members generalizing acc with
  | nil => simp
  | cons m rest ih => simp [ih, or_assoc]

theorem unionSubtype_right {subtype : TypeId → TypeId → Option Relation} {a b : TypeId} {ta : Ty}
    {members : List TypeId} (elementary : ta.Elementary) :
    unionSubtype subtype a b ta (.union members) =
      (members.foldlM (fun acc m =>
        (subtype a m).map fun r => acc.or r.certainty) Certainty.no).map
          fun acc => ⟨acc, .subtype⟩ := by
  cases ta with
  | union others => exact absurd rfl (elementary.1.2 others)
  | _ => rfl

theorem unionSubtype_of_ne {subtype : TypeId → TypeId → Option Relation} {a b : TypeId}
    {ta tb : Ty} (elementary : ta.Elementary) (notUnion : ∀ members, tb ≠ .union members) :
    unionSubtype subtype a b ta tb = some (.maybe .subtype) := by
  cases ta with
  | union others => exact absurd rfl (elementary.1.2 others)
  | _ =>
      cases tb with
      | union members => exact absurd rfl (notUnion members)
      | _ => rfl

/-- `subtype` returns on issued handles, and its `yes` is inclusion of atoms. -/
theorem subtype_spec (coherent : i.Coherent) {a b : TypeId} (aIssued : i.Issued a)
    (bIssued : i.Issued b) :
    ∃ r, (∀ fuel, a.index + b.index < fuel → i.subtype fuel a b = some r) ∧
      (r.certainty = .yes ↔ Below i a b) := by
  have hashed := coherent.toHashConsed
  obtain ⟨n, bound⟩ : ∃ n, a.index + b.index < n := ⟨a.index + b.index + 1, Nat.lt_succ_self _⟩
  induction n generalizing a b with
  | zero => exact absurd bound (Nat.not_lt_zero _)
  | succ n ih =>
      obtain ⟨ta, aFound⟩ := hashed.exists_get_of_issued aIssued
      obtain ⟨tb, bFound⟩ := hashed.exists_get_of_issued bIssued
      have answers {r : Relation}
          (answer : ∀ fuel, a.index + b.index ≤ fuel → i.subtype (fuel + 1) a b = some r) :
          ∀ fuel, a.index + b.index < fuel → i.subtype fuel a b = some r := by
        intro fuel enough
        obtain ⟨fuel, rfl⟩ := Nat.exists_eq_succ_of_ne_zero (Nat.ne_zero_of_lt enough)
        exact answer fuel (by omega)
      by_cases same : a = b
      · subst same
        refine ⟨.yes .subtype, answers fun fuel _ => by simp [subtype], ?_⟩
        exact iff_of_true rfl (Or.inr fun x atom => atom)
      by_cases aBottom : ta = .bottom
      · subst aBottom
        refine ⟨.yes .subtype, answers fun fuel _ => by simp [subtype, same, isBottom, aFound], ?_⟩
        exact iff_of_true rfl (Or.inr fun x atom => absurd atom (atom_bottom aFound))
      by_cases bTop : tb = .top
      · subst bTop
        refine ⟨.yes .subtype, answers fun fuel _ => by
          simp [subtype, same, isBottom, isPlainTop, bFound], ?_⟩
        obtain rfl := hashed.get_injective bFound coherent.get_top
        exact iff_of_true rfl (Or.inl (coherent.atom_top_iff.mpr rfl))
      have unfolded (fuel : Nat) : i.subtype (fuel + 1) a b =
          if i.facet a ≠ a ∨ i.facet b ≠ b then i.subtype fuel (i.facet a) (i.facet b)
          else unionSubtype (i.subtype fuel) a b ta tb := by
        rw [subtype, if_neg same]
        simp [isBottom, isPlainTop, aFound, bFound, aBottom, bTop]
      by_cases wrapped : i.facet a ≠ a ∨ i.facet b ≠ b
      · have aFacet := hashed.facet_issued aIssued
        have bFacet := hashed.facet_issued bIssued
        have smaller : (i.facet a).index + (i.facet b).index < a.index + b.index := by
          rcases wrapped with differs | differs
          · have := aFacet.2.1 differs
            omega
          · have := bFacet.2.1 differs
            omega
        obtain ⟨r, answered, yes_iff⟩ := ih aFacet.1 bFacet.1 (by omega)
        refine ⟨r, answers fun fuel enough => ?_, ?_⟩
        · rw [unfolded, if_pos wrapped]
          exact answered fuel (by omega)
        · simpa only [Below, atom_facet_iff] using yes_iff
      have bare {id : TypeId} {facet : TypeId} (issued : i.Issued id) (unwrapped : i.facet id = id)
          (found : i.get id = some (.dynamic facet)) : False := by
        have below := hashed.child_issued issued found (List.mem_singleton_self facet)
        rw [Interner.facet, found] at unwrapped
        exact Nat.lt_irrefl id.index (unwrapped ▸ below.1)
      rw [not_or, not_not, not_not] at wrapped
      rcases Carrier.kinds ta with rfl | ⟨facet, rfl⟩ | ⟨members, rfl⟩ | aElementary
      · exact absurd rfl aBottom
      · exact (bare aIssued wrapped.1 aFound).elim
      · have each : ∀ m ∈ members, ∃ r,
            (∀ fuel, m.index + b.index < fuel → i.subtype fuel m b = some r) ∧
              (r.certainty = .yes ↔ Below i m b) := by
          intro m mem
          have below := hashed.child_issued aIssued aFound mem
          exact ih below.2 bIssued (by omega)
        choose! answer answered yes_iff using each
        refine ⟨⟨members.foldl (fun acc m => acc.and (answer m).certainty) .yes, .subtype⟩,
          answers fun fuel enough => ?_, ?_⟩
        · have queried : ∀ m ∈ members, i.subtype fuel m b = some (answer m) := by
            intro m mem
            have below := hashed.child_issued aIssued aFound mem
            exact answered m mem fuel (by omega)
          rw [unfolded, if_neg (by simp [wrapped]), unionSubtype, foldlM_certainty queried]
          rfl
        · rw [foldl_and_eq_yes, below_union_left aFound]
          simp only [true_and]
          exact forall₂_congr fun m mem => yes_iff m mem
      · rcases Carrier.kinds tb with rfl | ⟨facet, rfl⟩ | ⟨members, rfl⟩ | bElementary
        · refine ⟨.maybe .subtype, answers fun fuel _ => ?_, ?_⟩
          · rw [unfolded, if_neg (by simp [wrapped]), unionSubtype_of_ne aElementary (by simp)]
          · exact iff_of_false (by decide) (not_below_of_ne coherent aFound aElementary bFound same
              bTop (Or.inl rfl))
        · exact (bare bIssued wrapped.2 bFound).elim
        · have each : ∀ m ∈ members, ∃ r,
              (∀ fuel, a.index + m.index < fuel → i.subtype fuel a m = some r) ∧
                (r.certainty = .yes ↔ Below i a m) := by
            intro m mem
            have below := hashed.child_issued bIssued bFound mem
            exact ih aIssued below.2 (by omega)
          choose! answer answered yes_iff using each
          refine ⟨⟨members.foldl (fun acc m => acc.or (answer m).certainty) .no, .subtype⟩,
            answers fun fuel enough => ?_, ?_⟩
          · have queried : ∀ m ∈ members, i.subtype fuel a m = some (answer m) := by
              intro m mem
              have below := hashed.child_issued bIssued bFound mem
              exact answered m mem fuel (by omega)
            rw [unfolded, if_neg (by simp [wrapped]), unionSubtype_right aElementary,
              foldlM_certainty queried]
            rfl
          · rw [foldl_or_eq_yes, below_union_right aFound aElementary bFound]
            simp only [reduceCtorEq, false_or]
            exact exists_congr fun m => and_congr_right fun mem => yes_iff m mem
        · refine ⟨.maybe .subtype, answers fun fuel _ => ?_, ?_⟩
          · rw [unfolded, if_neg (by simp [wrapped]),
              unionSubtype_of_ne aElementary bElementary.1.2]
          · exact iff_of_false (by decide) (not_below_of_ne coherent aFound aElementary bFound same
              bTop (Or.inr bElementary))

/-- `subtype` answers `yes`. -/
def Yes (i : Interner) (a b : TypeId) : Prop :=
  ∃ r, Returns (fun fuel => i.subtype fuel a b) r ∧ r.certainty = .yes

theorem yes_iff_below (coherent : i.Coherent) {a b : TypeId} (aIssued : i.Issued a)
    (bIssued : i.Issued b) : i.Yes a b ↔ Below i a b := by
  obtain ⟨r, answers, yes_iff⟩ := subtype_spec coherent aIssued bIssued
  constructor
  · rintro ⟨other, returns, yes⟩
    obtain rfl := returns.unique ⟨_, answers⟩
    exact yes_iff.mp yes
  · intro below
    exact ⟨r, ⟨_, answers⟩, yes_iff.mpr below⟩

theorem Below.trans {a b c : TypeId} (first : Below i a b)
    (second : Below i b c) : Below i a c := by
  rcases second with top | included
  · exact Or.inl top
  · rcases first with top | includedFirst
    · exact Or.inl (included i.top top)
    · exact Or.inr fun x atom => included x (includedFirst x atom)

/-! ## `join` unites atoms -/

/-- A handle keeps its atoms. -/
theorem Run.atom_iff (run : Run i j) (before : i.Coherent) {id x : TypeId}
    (inRange : i.InRange id) : Atom j id x ↔ Atom i id x := by
  obtain ⟨n, bound⟩ : ∃ n, id.index < n := ⟨id.index + 1, Nat.lt_succ_self _⟩
  induction n generalizing id with
  | zero => exact absurd bound (Nat.not_lt_zero _)
  | succ n ih =>
      obtain ⟨ty, found⟩ := exists_get inRange
      have later := run.get_eq found
      rcases Carrier.kinds ty with rfl | ⟨facet, rfl⟩ | ⟨members, rfl⟩ | elementary
      · exact iff_of_false (atom_bottom later) (atom_bottom found)
      · have below := before.child_inRange found (List.mem_singleton_self facet)
        rw [atom_dynamic_iff later, atom_dynamic_iff found]
        exact ih below.2 (by omega)
      · rw [atom_union_iff later, atom_union_iff found]
        refine exists_congr fun m => and_congr_right fun mem => ?_
        have below := before.child_inRange found mem
        exact ih below.2 (by omega)
      · rw [atom_self_iff later elementary, atom_self_iff found elementary]

/-- The atoms of a type are those of its union members. -/
theorem atom_iff_member (hashed : i.HashConsed) {id x : TypeId} (issued : i.Issued id) :
    Atom i id x ↔ ∃ m, Member .union i id m ∧ Atom i m x := by
  obtain ⟨n, bound⟩ : ∃ n, id.index < n := ⟨id.index + 1, Nat.lt_succ_self _⟩
  induction n generalizing id with
  | zero => exact absurd bound (Nat.not_lt_zero _)
  | succ n ih =>
      obtain ⟨ty, found⟩ := hashed.exists_get_of_issued issued
      by_cases pushed : ty.Pushed
      · simp [member_self_iff found pushed]
      · rcases Carrier.kinds ty with rfl | ⟨facet, rfl⟩ | ⟨members, rfl⟩ | elementary
        · have noMember (m : TypeId) : ¬ Member .union i id m := member_neutral found
          simp [atom_bottom found, noMember]
        · exact absurd ⟨by simp, by simp⟩ pushed
        · rw [atom_union_iff found]
          have member_iff (m : TypeId) :
              Member .union i id m ↔ ∃ child ∈ members, Member .union i child m :=
            member_build_iff found
          simp only [member_iff]
          constructor
          · rintro ⟨child, mem, atom⟩
            have below := hashed.child_issued issued found mem
            obtain ⟨m, member, inner⟩ := (ih below.2 (by omega)).mp atom
            exact ⟨m, ⟨child, mem, member⟩, inner⟩
          · rintro ⟨m, ⟨child, mem, member⟩, inner⟩
            have below := hashed.child_issued issued found mem
            exact ⟨child, mem, (ih below.2 (by omega)).mpr ⟨m, member, inner⟩⟩
        · exact absurd elementary.1 pushed

/-- The atoms of the result of `join`, up to absorption by `top`. -/
def AtomsJoined (i : Interner) (a b : TypeId) (j : Interner) (r : TypeId) : Prop :=
  (∀ x, Atom j r x ↔ Atom i a x ∨ Atom i b x) ∨
    Atom j r j.top ∧ (Atom i a i.top ∨ Atom i b i.top)

theorem internCombined_atom_iff (coherent : i.Coherent) {ids : List TypeId}
    (issued : ∀ m ∈ ids, i.Issued m) (fits : (i.internCombined .union ids).2.Fits) {x : TypeId} :
    Atom (i.internCombined .union ids).2 (i.internCombined .union ids).1 x ↔ ∃ m ∈ ids, Atom i m x := by
  match ids with
  | [] =>
      have none : ¬ Atom i i.bottom x := atom_bottom coherent.get_bottom
      simpa [internCombined, neutral] using none
  | [m] => simp [internCombined]
  | first :: second :: rest =>
      have run : Run i (i.intern (.union (first :: second :: rest))).2 := Run.intern .refl _ issued
      have found := coherent.get_intern (.union (first :: second :: rest)) fits
      rw [internCombined, Side.build, atom_union_iff found]
      · exact exists_congr fun m => and_congr_right fun mem =>
          run.atom_iff coherent (coherent.issued_lt (issued m mem))
      · simp
      · simp

theorem Combines.atoms {members : TypeId → Prop} {r : TypeId}
    (unites : Combines .union i members r j)
    (coherent : i.Coherent) (issued : ∀ m, members m → i.Issued m) (fits : j.Fits) :
    (∀ x, Atom j r x ↔ ∃ m, members m ∧ Atom i m x) ∨
      Atom j r j.top ∧ ∃ m, members m ∧ Atom i m i.top := by
  cases unites with
  | @absorbed m mem found =>
      obtain rfl := coherent.get_injective found coherent.get_top
      have self := coherent.atom_top_iff.mpr (rfl : i.top = i.top)
      exact Or.inr ⟨self, i.top, mem, self⟩
  | @sorted ids _ _ mem_iff =>
      left
      intro x
      rw [internCombined_atom_iff coherent (fun m mem => issued m ((mem_iff m).mp mem)) fits]
      exact exists_congr fun m => and_congr_left fun _ => mem_iff m

theorem AtomsJoined.wrap {a b fa fb facet : TypeId} (joined : AtomsJoined i fa fb j facet)
    (coherent : j.Coherent) (issued : j.Issued facet)
    (fits : (j.intern (.dynamic facet)).2.Fits) (sameA : ∀ x, Atom i a x ↔ Atom i fa x)
    (sameB : ∀ x, Atom i b x ↔ Atom i fb x) :
    AtomsJoined i a b (j.intern (.dynamic facet)).2 (j.intern (.dynamic facet)).1 := by
  have run : Run j (j.intern (.dynamic facet)).2 := by
    apply Run.intern .refl
    intro child mem
    obtain rfl := List.mem_singleton.mp mem
    exact issued
  have atoms (x : TypeId) : Atom (j.intern (.dynamic facet)).2 (j.intern (.dynamic facet)).1 x ↔
      Atom j facet x := by
    rw [atom_dynamic_iff (coherent.get_intern _ fits)]
    exact run.atom_iff coherent (coherent.issued_lt issued)
  simp only [AtomsJoined, atoms, sameA, sameB, (run.handles_eq coherent).1]
  exact joined

theorem Joins.atoms {a b r : TypeId} (joins : Joins i a b r j) (coherent : i.Coherent)
    (aIssued : i.Issued a) (bIssued : i.Issued b) (fits : j.Fits) : AtomsJoined i a b j r := by
  have wrapped {i j : Interner} {a b fa fb facet : TypeId} (before : i.Coherent)
      (faIssued : i.Issued fa) (fbIssued : i.Issued fb) (facets : Joins i fa fb facet j)
      (joined : j.Fits → AtomsJoined i fa fb j facet)
      (fits : (j.intern (.dynamic facet)).2.Fits) (sameA : ∀ x, Atom i a x ↔ Atom i fa x)
      (sameB : ∀ x, Atom i b x ↔ Atom i fb x) :
      AtomsJoined i a b (j.intern (.dynamic facet)).2 (j.intern (.dynamic facet)).1 := by
    have facetRun := facets.run before faIssued fbIssued
    have last : Run j (j.intern (.dynamic facet)).2 := by
      apply Run.intern .refl
      intro child mem
      obtain rfl := List.mem_singleton.mp mem
      exact facetRun.2
    exact (joined (last.fits fits)).wrap (facetRun.1.coherent before) facetRun.2 fits sameA sameB
  induction joins with
  | same => exact Or.inl fun x => (or_self_iff).symm
  | bottomLeft found => exact Or.inl fun x => by simp [atom_bottom found]
  | bottomRight found => exact Or.inl fun x => by simp [atom_bottom found]
  | top found =>
      right
      have self := coherent.atom_top_iff.mpr (Eq.refl _)
      refine ⟨self, ?_⟩
      rcases found with found | found
      · obtain rfl := coherent.get_injective found coherent.get_top
        exact Or.inl self
      · obtain rfl := coherent.get_injective found coherent.get_top
        exact Or.inr self
  | dynamic aFound bFound facets ih =>
      have faIssued := coherent.child_issued aIssued aFound (List.mem_singleton_self _)
      have fbIssued := coherent.child_issued bIssued bFound (List.mem_singleton_self _)
      exact wrapped coherent faIssued.2 fbIssued.2 facets (ih faIssued.2 fbIssued.2) fits
        (fun x => atom_dynamic_iff aFound) (fun x => atom_dynamic_iff bFound)
  | dynamicLeft aFound _ _ facets ih =>
      have faIssued := coherent.child_issued aIssued aFound (List.mem_singleton_self _)
      exact wrapped coherent faIssued.2 bIssued facets (ih faIssued.2 bIssued) fits
        (fun x => atom_dynamic_iff aFound) (fun x => Iff.rfl)
  | dynamicRight _ _ bFound facets ih =>
      have fbIssued := coherent.child_issued bIssued bFound (List.mem_singleton_self _)
      exact wrapped coherent aIssued fbIssued.2 facets (ih aIssued fbIssued.2) fits
        (fun x => Iff.rfl) (fun x => atom_dynamic_iff bFound)
  | @union j a b r _ _ _ _ _ _ _ unites =>
      have split (x : TypeId) : (∃ m, (Member .union i a m ∨ Member .union i b m) ∧ Atom i m x) ↔
          Atom i a x ∨ Atom i b x := by
        rw [atom_iff_member coherent.toHashConsed aIssued,
          atom_iff_member coherent.toHashConsed bIssued, ← exists_or]
        exact exists_congr fun m => or_and_right
      have issued : ∀ m, Member .union i a m ∨ Member .union i b m → i.Issued m := by
        rintro m (inA | inB)
        · exact (inA.issued coherent.toHashConsed aIssued).1
        · exact (inB.issued coherent.toHashConsed bIssued).1
      rcases unites.atoms coherent issued fits with atoms | ⟨top, absorbed⟩
      · exact Or.inl fun x => (atoms x).trans (split x)
      · exact Or.inr ⟨top, (split _).mp absorbed⟩

/-- The laws of `subtype` and `join` in a state of a run, for the joins that end
in an admitted state. -/
structure SubtypeLaws (i : Interner) (Admitted : Interner → Prop) : Prop where
  returns : ∀ a b, i.Issued a → i.Issued b → ∃ r, Returns (fun fuel => i.subtype fuel a b) r
  reflexive : ∀ a, i.Issued a → i.Yes a a
  transitive : ∀ a b c, i.Issued a → i.Issued b → i.Issued c → i.Yes a b → i.Yes b c → i.Yes a c
  upper : ∀ a b r j, i.Issued a → i.Issued b → Returns (fun fuel => join fuel i a b) (r, j) →
    Admitted j → j.Yes a r ∧ j.Yes b r
  least : ∀ a b c r j, i.Issued a → i.Issued b → j.Issued c →
    Returns (fun fuel => join fuel i a b) (r, j) → Admitted j → j.Yes a c → j.Yes b c → j.Yes r c

/-- In every state of a run `subtype` is a preorder, and `join` its least upper
bound as long as the handles suffice. -/
theorem subtypeLaws (reachable : i.Reachable) : i.SubtypeLaws Fits := by
  have coherent := reachable.coherent
  constructor
  · intro a b aIssued bIssued
    obtain ⟨r, answers, -⟩ := subtype_spec coherent aIssued bIssued
    exact ⟨r, _, answers⟩
  · intro a aIssued
    exact (yes_iff_below coherent aIssued aIssued).mpr (Or.inr fun x atom => atom)
  · intro a b c aIssued bIssued cIssued
    rw [yes_iff_below coherent aIssued bIssued, yes_iff_below coherent bIssued cIssued,
      yes_iff_below coherent aIssued cIssued]
    exact Below.trans
  · intro a b r j aIssued bIssued returns fits
    have joins := joins_of_returns coherent.toHashConsed aIssued bIssued returns
    obtain ⟨run, rIssued⟩ := joins.run coherent aIssued bIssued
    have after := run.coherent coherent
    rw [yes_iff_below after (run.issued coherent aIssued) rIssued,
      yes_iff_below after (run.issued coherent bIssued) rIssued]
    have keep {id x : TypeId} (issued : i.Issued id) : Atom j id x ↔ Atom i id x :=
      run.atom_iff coherent (coherent.issued_lt issued)
    rcases joins.atoms coherent aIssued bIssued fits with atoms | ⟨top, -⟩
    · simp only [Below, keep aIssued, keep bIssued, atoms]
      exact ⟨Or.inr fun x => Or.inl, Or.inr fun x => Or.inr⟩
    · exact ⟨Or.inl top, Or.inl top⟩
  · intro a b c r j aIssued bIssued cIssued returns fits
    have joins := joins_of_returns coherent.toHashConsed aIssued bIssued returns
    obtain ⟨run, rIssued⟩ := joins.run coherent aIssued bIssued
    have after := run.coherent coherent
    rw [yes_iff_below after (run.issued coherent aIssued) cIssued,
      yes_iff_below after (run.issued coherent bIssued) cIssued,
      yes_iff_below after rIssued cIssued]
    have keep {id x : TypeId} (issued : i.Issued id) : Atom j id x ↔ Atom i id x :=
      run.atom_iff coherent (coherent.issued_lt issued)
    rintro (top | aBelow) (top' | bBelow)
    · exact Or.inl top
    · exact Or.inl top
    · exact Or.inl top'
    · simp only [keep aIssued] at aBelow
      simp only [keep bIssued] at bBelow
      rcases joins.atoms coherent aIssued bIssued fits with atoms | ⟨-, absorbed⟩
      · refine Or.inr fun x atom => ?_
        rcases (atoms x).mp atom with inA | inB
        · exact aBelow x inA
        · exact bBelow x inB
      · rw [← (run.handles_eq coherent).1] at absorbed
        exact Or.inl (absorbed.elim (aBelow _) (bBelow _))

theorem subtypeLaws_filled_three : (filled 3).SubtypeLaws Fits :=
  subtypeLaws (filled_spec 3 (by decide)).1

/-- In a full arena the join of the literals `0` and `1` is answered as `bottom`,
which is above neither. -/
theorem not_subtypeLaws_filled :
    (filled (2 ^ 32 - 4)).Reachable ∧ ¬ (filled (2 ^ 32 - 4)).SubtypeLaws fun _ => True := by
  have bound : 2 ^ 32 - 4 ≤ 2 ^ 63 := by decide
  have full : (filled (2 ^ 32 - 4)).arena.length = capacity + 1 := by
    rw [length_filled bound]
    rfl
  have reachable := (filled_spec _ bound).1
  have literal {k : Nat} (below : k < 2) :
      (filled (2 ^ 32 - 4)).get ⟨5 + k⟩ = some (.constant (.int (Int64.ofNat k))) :=
    get_filled bound (Nat.lt_trans below (by decide))
  have unions := union_notMem_filled bound
  generalize filled (2 ^ 32 - 4) = i at full reachable literal unions
  refine ⟨reachable, fun laws => ?_⟩
  have coherent := reachable.coherent
  have literalIssued {k : Nat} (below : k < 2) : i.Issued ⟨5 + k⟩ :=
    coherent.issued_iff.mpr ⟨get_eq_some_lt (literal below),
      Nat.lt_trans (Nat.add_lt_add_left below 5) (by decide)⟩
  have zero : i.Issued ⟨5 + 0⟩ := literalIssued (by decide)
  have one : i.Issued ⟨5 + 1⟩ := literalIssued (by decide)
  obtain ⟨r, j, answers, joins⟩ := exists_joins coherent.toHashConsed zero one
  obtain ⟨run, rIssued⟩ := joins.run coherent zero one
  have after := run.coherent coherent
  obtain ⟨handle, -⟩ := joins.fresh coherent.toHashConsed (by decide) (literal (by decide))
    (atomic_constant _) (literal (by decide)) (atomic_constant _) fun members _ _ => unions members
  have bottom : j.get r = some .bottom := by
    have rBottom : r = j.bottom := by
      rw [handle, full, after.bottom, Nat.add_mod_left]
      rfl
    rw [rBottom, after.get_bottom]
  have yes := (laws.upper _ _ r j zero one ⟨_, answers⟩ trivial).1
  rw [yes_iff_below after (run.issued coherent zero) rIssued] at yes
  rcases yes with top | included
  · exact atom_bottom bottom top
  · apply atom_bottom bottom
    exact included ⟨5 + 0⟩ (.self (run.get_eq (literal (by decide))) ⟨⟨by simp, by simp⟩, by simp⟩)

end Interner

end Rigor.Types
