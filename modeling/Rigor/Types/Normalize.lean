import Rigor.Types.JoinLaws
import Rigor.Types.NormalForm

/-!
# `normalize` and the fold of `join`

`normalize` returns normal forms.  A raw union is normalized to the union of the
members of its members' normal forms; folding `join` over these normal forms gives
the same handle unless a `Dynamic` meets a type other than itself.
-/

namespace Rigor.Types

open Rigor.Library.Fuel Rigor.Library.Order

namespace Interner

variable {i j k l : Interner}

/-- `normalize` on `a` in `i` returns the normal form `n` and leaves `j`. -/
structure Normalizes (i : Interner) (a n : TypeId) (j : Interner) : Prop where
  returns : Returns (fun fuel => normalize fuel i a) (n, j)
  run : Run i j
  issued : j.Issued n
  form : j.Fits → NormalForm j a n

/-- The member loop normalizes each member and collects the members of its normal
form. -/
theorem normalizeMembers_spec (side : Side) {members : List TypeId} (coherent : i.Coherent)
    (each : ∀ m ∈ members, ∀ j, Run i j → ∃ n k, Normalizes j m n k) (out : List TypeId) :
    ∃ ns flat k, Returns (fun fuel => normalizeMembers (normalize fuel)
        (fun i => i.collectMembers side fuel) i members out) (out ++ flat, k) ∧
      Run i k ∧ (∀ n ∈ ns, k.Issued n) ∧ (k.Fits → List.Forall₂ (NormalForm k) members ns) ∧
      ∀ x, x ∈ flat ↔ ∃ n ∈ ns, Member side k n x := by
  induction members generalizing i out with
  | nil =>
      refine ⟨[], [], i, ?_, .refl, by simp, fun _ => .nil, by simp⟩
      exact .of_const fun fuel => by simp [normalizeMembers]
  | cons m rest ih =>
      rw [List.forall_mem_cons] at each
      obtain ⟨n, i₁, normalized⟩ := each.1 i .refl
      have coherent₁ := normalized.run.coherent coherent
      obtain ⟨xs, collected, xs_iff⟩ :=
        collectMembers_spec side coherent₁.toHashConsed normalized.issued
      obtain ⟨ns, flat, k, returns, run, issued, forms, flat_iff⟩ :=
        ih coherent₁ (fun m mem j run => each.2 m mem j (normalized.run.trans run)) (out ++ xs)
      refine ⟨n :: ns, xs ++ flat, k, ?_, normalized.run.trans run, ?_, fun fits => ?_, ?_⟩
      · rw [← List.append_assoc]
        have collects : Returns (fun fuel => i₁.collectMembers side fuel n out) (out ++ xs) :=
          ⟨n.index, fun fuel enough => collected fuel enough out⟩
        exact normalized.returns.bind (collects.bind returns)
      · exact List.forall_mem_cons.mpr ⟨run.issued coherent₁ normalized.issued, issued⟩
      · exact .cons ((normalized.form (run.fits fits)).run run coherent₁) (forms fits)
      · intro x
        rw [List.mem_append, List.exists_mem_cons_iff, xs_iff, flat_iff,
          run.member_iff coherent₁ (coherent₁.issued_lt normalized.issued)]

/-- The members of the normal forms, by position and by choice. -/
theorem NormalForm.exists_member_iff (hashed : i.HashConsed) {side : Side} {members ns : List TypeId}
    (paired : List.Forall₂ (NormalForm i) members ns) {forms : TypeId → TypeId}
    (each : ∀ m ∈ members, NormalForm i m (forms m)) {x : TypeId} :
    (∃ n ∈ ns, Member side i n x) ↔ ∃ m ∈ members, Member side i (forms m) x := by
  have same : ns = members.map forms := by
    induction paired with
    | nil => rfl
    | cons form _ ih =>
        rw [List.forall_mem_cons] at each
        rw [List.map_cons, ← ih each.2, form.unique hashed each.1]
  simp [same]

theorem NormalForm.exists_forms {members ns : List TypeId}
    (paired : List.Forall₂ (NormalForm i) members ns) :
    ∃ forms : TypeId → TypeId, ∀ m ∈ members, NormalForm i m (forms m) := by
  have each : ∀ m ∈ members, ∃ n, NormalForm i m n := by
    induction paired with
    | nil => simp
    | cons form _ ih => exact List.forall_mem_cons.mpr ⟨⟨_, form⟩, ih⟩
  choose! forms holds using each
  exact ⟨forms, holds⟩

theorem NormalForm.normal_of_mem {members ns : List TypeId}
    (paired : List.Forall₂ (NormalForm i) members ns) {n : TypeId} (mem : n ∈ ns) : Normal i n := by
  induction paired with
  | nil => exact absurd mem List.not_mem_nil
  | cons form _ ih =>
      rcases List.mem_cons.mp mem with rfl | inRest
      · exact form.normal
      · exact ih inRest

/-- The part of `normalize` that unions and intersections share. -/
theorem normalizeCombined_spec (side : Side) {a : TypeId} {members : List TypeId}
    (coherent : i.Coherent) (found : i.get a = some (side.build members))
    (each : ∀ m ∈ members, ∀ j, Run i j → ∃ n k, Normalizes j m n k)
    (unfolded : ∀ fuel, normalize (fuel + 1) i a =
      (normalizeMembers (normalize fuel) (fun i => i.collectMembers side fuel) i members []).bind
        fun (flat, i) => makeCombined side fuel i flat) :
    ∃ r k, Normalizes i a r k := by
  obtain ⟨ns, flat, j, returns, run, issued, forms, flat_iff⟩ :=
    normalizeMembers_spec side coherent each []
  have after := run.coherent coherent
  have flatIssued : ∀ x ∈ flat, j.Issued x ∧ ∃ ty, j.get x = some ty ∧ side.Pushed ty := by
    intro x mem
    obtain ⟨n, nMem, member⟩ := (flat_iff x).mp mem
    exact ⟨(member.issued after.toHashConsed (issued n nMem)).1, member.pushed⟩
  obtain ⟨r, k, answers, combines⟩ :=
    makeCombined_spec side after.toHashConsed fun x mem => (flatIssued x mem).1
  obtain ⟨lastRun, rIssued⟩ := combines.run after fun x mem => (flatIssued x mem).1
  refine ⟨r, k, ?_, run.trans lastRun, rIssued, fun fits => ?_⟩
  · have makes : Returns (fun fuel => makeCombined side fuel j flat) (r, k) := by
      refine ⟨j.arena.length, fun fuel enough => answers fuel fun m mem => ?_⟩
      exact Nat.lt_trans (after.issued_lt (flatIssued m mem).1) enough
    apply Returns.of_succ
    simp only [unfolded]
    exact returns.bind makes
  · have collapses := combines.collapses after (fun x mem => (flatIssued x mem).1)
      (fun x mem => (flatIssued x mem).2) fits
    have paired := forms (lastRun.fits fits)
    obtain ⟨forms, each⟩ := NormalForm.exists_forms paired
    have later : ∀ m ∈ members, NormalForm k m (forms m) := fun m mem =>
      (each m mem).run lastRun after
    apply NormalForm.combined ((run.trans lastRun).get_eq found) later
    apply collapses.congr
    intro x
    rw [flat_iff, NormalForm.exists_member_iff after.toHashConsed paired each]
    apply exists_congr
    intro m
    apply and_congr_right
    intro mem
    obtain ⟨ty, formFound⟩ := (each m mem).normal.exists_get
    exact (lastRun.member_iff after (get_eq_some_lt formFound)).symm

/-- `normalize` returns the normal form of an issued handle. -/
theorem normalize_spec (coherent : i.Coherent) {a : TypeId} (issued : i.Issued a) :
    ∃ r j, Normalizes i a r j := by
  obtain ⟨n, bound⟩ : ∃ n, a.index < n := ⟨a.index + 1, Nat.lt_succ_self _⟩
  induction n generalizing i a with
  | zero => exact absurd bound (Nat.not_lt_zero _)
  | succ n ih =>
      obtain ⟨ty, found⟩ := coherent.exists_get_of_issued issued
      have later {child : TypeId} (mem : child ∈ ty.children) (j : Interner) (run : Run i j) :
          ∃ r k, Normalizes j child r k := by
        have below := coherent.child_issued issued found mem
        exact ih (run.coherent coherent) (run.issued coherent below.2) (by omega)
      have leaf (isLeaf : ty.Leaf) (unfolded : ∀ fuel, normalize (fuel + 1) i a = some (a, i)) :
          ∃ r j, Normalizes i a r j :=
        ⟨a, i, .of_const unfolded, .refl, issued, fun _ => .leaf found isLeaf⟩
      cases ty with
      | union members =>
          apply normalizeCombined_spec .union coherent found fun m mem => later mem
          intro fuel
          rw [normalize, found]
          rfl
      | intersection members =>
          apply normalizeCombined_spec .intersection coherent found fun m mem => later mem
          intro fuel
          rw [normalize, found]
          rfl
      | dynamic facet =>
          obtain ⟨f, j, normalized⟩ := later (List.mem_singleton_self facet) i .refl
          have after := normalized.run.coherent coherent
          have run : Run j (j.intern (.dynamic f)).2 := by
            apply Run.intern .refl
            intro child mem
            obtain rfl := List.mem_singleton.mp mem
            exact normalized.issued
          refine ⟨_, _, ?_, normalized.run.trans run, after.issued_intern _, fun fits => ?_⟩
          · apply Returns.of_succ
            simp only [normalize, found]
            exact normalized.returns.map _ rfl
          · exact .dynamic ((normalized.run.trans run).get_eq found)
              ((normalized.form (run.fits fits)).run run after) (after.get_intern _ fits)
      | _ =>
          apply leaf
          · constructor
            · simp
            · intro side members
              cases side <;> simp
          · intro fuel
            rw [normalize, found]

/-- Normalize the types one after the other. -/
def normalizeAll (fuel : Nat) : Interner → List TypeId → Option (List TypeId × Interner)
  | i, [] => some ([], i)
  | i, m :: rest =>
      (normalize fuel i m).bind fun (n, i) =>
        (normalizeAll fuel i rest).map fun (ns, i) => (n :: ns, i)

theorem normalizeAll_spec (coherent : i.Coherent) {members : List TypeId}
    (issued : ∀ m ∈ members, i.Issued m) :
    ∃ ns k, Returns (fun fuel => normalizeAll fuel i members) (ns, k) ∧ Run i k ∧
      (∀ n ∈ ns, k.Issued n) ∧ (k.Fits → List.Forall₂ (NormalForm k) members ns) := by
  induction members generalizing i with
  | nil => exact ⟨[], i, .of_const fun _ => rfl, .refl, by simp, fun _ => .nil⟩
  | cons m rest ih =>
      rw [List.forall_mem_cons] at issued
      obtain ⟨n, j, normalized⟩ := normalize_spec coherent issued.1
      have after := normalized.run.coherent coherent
      obtain ⟨ns, k, returns, run, nsIssued, forms⟩ :=
        ih after fun m mem => normalized.run.issued coherent (issued.2 m mem)
      refine ⟨n :: ns, k, ?_, normalized.run.trans run, ?_, fun fits => ?_⟩
      · exact normalized.returns.bind (returns.map _ rfl)
      · exact List.forall_mem_cons.mpr ⟨run.issued after normalized.issued, nsIssued⟩
      · exact .cons ((normalized.form (run.fits fits)).run run after) (forms fits)

/-! ## Folding `join` -/

/-- `join` from left to right, starting from a type. -/
def Grouping.fold (start : TypeId) (ids : List TypeId) : Grouping :=
  ids.foldl (fun joined id => .join joined (.leaf id)) (.leaf start)

/-- The handle is a `Dynamic`. -/
def IsDynamic (i : Interner) (id : TypeId) : Prop :=
  ∃ facet, i.get id = some (.dynamic facet)

/-- What the fold of `join` holds after some types of `k` without a `top`: a
`Dynamic` once there was one among them, before that the canonical union of their
members. -/
def Folded (k i : Interner) (ids : List TypeId) (id : TypeId) : Prop :=
  i.IsDynamic id ∧ (∃ n ∈ ids, k.IsDynamic n) ∨
    (∀ n ∈ ids, ¬ k.IsDynamic n) ∧
      ∃ members, Canonical .union i id members ∧ ∀ x, x ∈ members ↔ ∃ n ∈ ids, Member .union k n x

/-- `Dynamic` meets no type but itself, or `top` absorbs it. -/
def Unmixed (i : Interner) (ids : List TypeId) : Prop :=
  (∃ n ∈ ids, i.get n = some .top) ∨ (∀ n ∈ ids, ¬ i.IsDynamic n) ∨
    ∃ d, ∀ n ∈ ids, i.get n = some .bottom ∨ n = d

/-- The fold returns, and what each `join` preserves holds of its result. -/
theorem exists_fold {P : List TypeId → TypeId → Interner → Prop} (coherent : k.Coherent)
    (ids : List TypeId) (issued : ∀ n ∈ ids, k.Issued n) (start : P [] k.bottom k)
    (step : ∀ done n s l r j, done ++ [n] ⊆ ids → Run k l → l.Issued s →
      Returns (fun fuel => join fuel l s n) (r, j) → j.Fits → P done s l → P (done ++ [n]) r j) :
    ∃ s l, Returns (fun fuel => (Grouping.fold k.bottom ids).eval fuel k) (s, l) ∧ Run k l ∧
      l.Issued s ∧ (l.Fits → P ids s l) := by
  induction ids using List.reverseRecOn with
  | nil => exact ⟨k.bottom, k, .of_const fun _ => rfl, .refl, coherent.issued_bottom, fun _ => start⟩
  | append_singleton ids n ih =>
      obtain ⟨s, l, returns, run, sIssued, holds⟩ :=
        ih (fun n mem => issued n (List.mem_append_left _ mem)) fun done n s l r j within =>
          step done n s l r j fun m mem => List.mem_append_left _ (within mem)
      have after := run.coherent coherent
      have nIssued := run.issued coherent (issued n (List.mem_append_right _ List.mem_cons_self))
      obtain ⟨r, j, answers, joins⟩ := exists_joins after.toHashConsed sIssued nIssued
      have joined : Returns (fun fuel => join fuel l s n) (r, j) := ⟨_, answers⟩
      obtain ⟨lastRun, rIssued⟩ := joins.run after sIssued nIssued
      refine ⟨r, j, ?_, run.trans lastRun, rIssued, fun fits => ?_⟩
      · rw [Grouping.fold, List.foldl_append]
        exact returns.bind joined
      · exact step ids n s l r j (List.Subset.refl _) run sIssued joined fits
          (holds (lastRun.fits fits))

theorem Joins.get_top {a b r : TypeId} (joins : Joins i a b r j) (coherent : i.Coherent)
    (top : i.get a = some .top ∨ i.get b = some .top) : j.get r = some .top := by
  cases joins with
  | same => exact top.elim id id
  | bottomLeft found =>
      rcases top with top | top
      · exact absurd (found.symm.trans top) (by simp)
      · exact top
  | bottomRight found =>
      rcases top with top | top
      · exact top
      · exact absurd (found.symm.trans top) (by simp)
  | top => exact coherent.get_top
  | dynamic aFound bFound =>
      rcases top with top | top
      · exact absurd (aFound.symm.trans top) (by simp)
      · exact absurd (bFound.symm.trans top) (by simp)
  | dynamicLeft aFound bFound plain =>
      rcases top with top | top
      · exact absurd (aFound.symm.trans top) (by simp)
      · exact absurd (Option.some.inj (bFound.symm.trans top)) plain.1
  | dynamicRight aFound plain bFound =>
      rcases top with top | top
      · exact absurd (Option.some.inj (aFound.symm.trans top)) plain.1
      · exact absurd (bFound.symm.trans top) (by simp)
  | union _ aFound aPlain bFound bPlain =>
      rcases top with top | top
      · exact absurd (Option.some.inj (aFound.symm.trans top)) aPlain.1
      · exact absurd (Option.some.inj (bFound.symm.trans top)) bPlain.1

/-- A normal type other than `top` is the canonical union of its members. -/
theorem Normal.canonical {n : TypeId} (normal : Normal i n) (notTop : i.get n ≠ some .top) :
    ∃ ids, Canonical .union i n ids := by
  rcases normal.collapses .union with ⟨top, -⟩ | ⟨ids, canonical, -⟩
  · exact absurd top notTop
  · exact ⟨ids, canonical⟩

/-- A union whose members are one type collapses to it. -/
theorem Canonical.eq_of_forall {n d : TypeId} {ids : List TypeId} (hashed : i.HashConsed)
    (canonical : Canonical .union i n ids) (only : ∀ x, x ∈ ids → x = d) :
    i.get n = some .bottom ∨ n = d := by
  have isCombined := canonical.isCombined
  match ids with
  | [] => exact Or.inl isCombined
  | [m] =>
      obtain rfl : n = m := isCombined
      exact Or.inr (only n List.mem_cons_self)
  | first :: second :: rest =>
      have distinct := (List.nodup_cons.mp (canonical.nodup hashed)).1
      have same : first = second :=
        (only first (by simp)).trans (only second (by simp)).symm
      exact absurd (same ▸ List.mem_cons_self) distinct

theorem IsDynamic.ne_bottom {n : TypeId} (dynamic : i.IsDynamic n) : i.get n ≠ some .bottom := by
  obtain ⟨facet, found⟩ := dynamic
  simp [found]

theorem IsDynamic.run {n : TypeId} (dynamic : i.IsDynamic n) (run : Run i j) : j.IsDynamic n := by
  obtain ⟨facet, found⟩ := dynamic
  exact ⟨facet, run.get_eq found⟩

/-- The fold holds a `Dynamic` only after one. -/
theorem Folded.dynamic_mem {ids : List TypeId} {id : TypeId} (folded : Folded k i ids id)
    (coherent : k.Coherent) (run : Run k i) (normal : ∀ n ∈ ids, Normal k n)
    (noTop : ∀ n ∈ ids, k.get n ≠ some .top) (dynamic : i.IsDynamic id) :
    ∃ n ∈ ids, k.IsDynamic n := by
  rcases folded with ⟨-, dynamicMem⟩ | ⟨noDynamic, members, canonical, mem_iff⟩
  · exact dynamicMem
  · obtain ⟨facet, found⟩ := dynamic
    obtain rfl := canonical.eq_singleton found (Side.dynamic_pushed _ facet)
    obtain ⟨n, mem, member⟩ := (mem_iff id).mp List.mem_cons_self
    obtain ⟨inner, canonicalN⟩ := (normal n mem).canonical (noTop n mem)
    have only : ∀ x, x ∈ inner → x = id := by
      intro x xMem
      exact List.mem_singleton.mp ((mem_iff x).mpr ⟨n, mem, canonicalN.member_iff.mpr xMem⟩)
    rcases canonicalN.eq_of_forall coherent.toHashConsed only with bottom | rfl
    · exact absurd member (member_neutral bottom)
    · obtain ⟨ty, before⟩ := (normal n mem).exists_get
      rw [run.get_eq before] at found
      exact ⟨n, mem, facet, before.trans found⟩

/-- `join` wraps its result when a side is wrapped, unless `top` absorbs it. -/
theorem Joins.isDynamic {a b r : TypeId} (joins : Joins i a b r j) (coherent : i.Coherent)
    (aIssued : i.Issued a) (bIssued : i.Issued b) (fits : j.Fits)
    (aKept : i.get a ≠ some .top) (bKept : i.get b ≠ some .top)
    (dynamic : i.IsDynamic a ∨ i.IsDynamic b) : j.IsDynamic r := by
  have wrapped {j : Interner} {fa fb facet : TypeId} (faIssued : i.Issued fa)
      (fbIssued : i.Issued fb) (facets : Joins i fa fb facet j)
      (fits : (j.intern (.dynamic facet)).2.Fits) :
      (j.intern (.dynamic facet)).2.IsDynamic (j.intern (.dynamic facet)).1 := by
    have after := (facets.run coherent faIssued fbIssued).1.coherent coherent
    exact ⟨facet, after.get_intern _ fits⟩
  cases joins with
  | same => exact dynamic.elim id id
  | bottomLeft found => exact dynamic.resolve_left fun wrapped => wrapped.ne_bottom found
  | bottomRight found => exact dynamic.resolve_right fun wrapped => wrapped.ne_bottom found
  | top found => exact absurd found (not_or.mpr ⟨aKept, bKept⟩)
  | dynamic aFound bFound facets =>
      have faIssued := coherent.child_issued aIssued aFound (List.mem_singleton_self _)
      have fbIssued := coherent.child_issued bIssued bFound (List.mem_singleton_self _)
      exact wrapped faIssued.2 fbIssued.2 facets fits
  | dynamicLeft aFound _ _ facets =>
      have faIssued := coherent.child_issued aIssued aFound (List.mem_singleton_self _)
      exact wrapped faIssued.2 bIssued facets fits
  | dynamicRight _ _ bFound facets =>
      have fbIssued := coherent.child_issued bIssued bFound (List.mem_singleton_self _)
      exact wrapped aIssued fbIssued.2 facets fits
  | union _ aFound aPlain bFound bPlain =>
      rcases dynamic with ⟨facet, found⟩ | ⟨facet, found⟩
      · exact absurd (Option.some.inj (aFound.symm.trans found)) (aPlain.2.2 facet)
      · exact absurd (Option.some.inj (bFound.symm.trans found)) (bPlain.2.2 facet)

/-- One `join` of the fold. -/
theorem Folded.step {ids : List TypeId} {s n r : TypeId} (folded : Folded k i ids s)
    (coherent : k.Coherent) (run : Run k i) (normal : ∀ m ∈ ids ++ [n], Normal k m)
    (noTop : ∀ m ∈ ids ++ [n], k.get m ≠ some .top) (sIssued : i.Issued s) (nIssued : k.Issued n)
    (joins : Joins i s n r j) (fits : j.Fits) : Folded k j (ids ++ [n]) r := by
  have after := run.coherent coherent
  have nMem : n ∈ ids ++ [n] := List.mem_append_right _ List.mem_cons_self
  have old {m : TypeId} (mem : m ∈ ids) : m ∈ ids ++ [n] := List.mem_append_left _ mem
  obtain ⟨tn, nFound⟩ := (normal n nMem).exists_get
  have nFound' := run.get_eq nFound
  have sKept : i.get s ≠ some .top := by
    intro found
    rcases folded with ⟨⟨facet, dynamic⟩, -⟩ | ⟨-, members, canonical, -⟩
    · exact absurd (dynamic.symm.trans found) (by simp)
    · exact canonical.get_ne found
  have nKept : i.get n ≠ some .top := by
    rw [nFound', ← nFound]
    exact noTop n nMem
  have nDynamic_iff : i.IsDynamic n ↔ k.IsDynamic n := by
    simp only [IsDynamic, nFound, nFound']
  by_cases dynamic : i.IsDynamic s ∨ k.IsDynamic n
  · have someDynamic : ∃ m ∈ ids ++ [n], k.IsDynamic m := by
      rcases dynamic with sDynamic | nDynamic
      · obtain ⟨m, mem, mDynamic⟩ := folded.dynamic_mem coherent run
          (fun m mem => normal m (old mem)) (fun m mem => noTop m (old mem)) sDynamic
        exact ⟨m, old mem, mDynamic⟩
      · exact ⟨n, nMem, nDynamic⟩
    rw [← nDynamic_iff] at dynamic
    exact Or.inl ⟨joins.isDynamic after sIssued (run.issued coherent nIssued) fits sKept nKept
      dynamic, someDynamic⟩
  rw [not_or] at dynamic
  rcases folded with ⟨sDynamic, -⟩ | ⟨noDynamic, members, canonical, mem_iff⟩
  · exact absurd sDynamic dynamic.1
  obtain ⟨ids', canonicalN⟩ := (normal n nMem).canonical (noTop n nMem)
  have noDynamic' : ∀ m ∈ ids ++ [n], ¬ k.IsDynamic m := by
    intro m mem
    rcases List.mem_append.mp mem with inIds | isN
    · exact noDynamic m inIds
    · rw [List.mem_singleton.mp isN]
      exact dynamic.2
  have split (x : TypeId) : (∃ m ∈ ids ++ [n], Member .union k m x) ↔ x ∈ members ∨ x ∈ ids' := by
    rw [mem_iff, ← canonicalN.member_iff]
    simp [or_and_right, exists_or]
  refine Or.inr ⟨noDynamic', ?_⟩
  simp only [split]
  have canonicalN' := canonicalN.run run coherent
  have empty {id : TypeId} {xs : List TypeId} (canonical : Canonical .union i id xs)
      (found : i.get id = some .bottom) (x : TypeId) : x ∉ xs := by
    rw [← canonical.member_iff]
    exact member_neutral found
  cases joins with
  | same =>
      refine ⟨members, canonical, fun x => ?_⟩
      rw [← canonicalN'.member_iff, ← canonical.member_iff, or_self]
  | bottomLeft found =>
      refine ⟨ids', canonicalN', fun x => ?_⟩
      simp [empty canonical found x]
  | bottomRight found =>
      refine ⟨members, canonical, fun x => ?_⟩
      simp [empty canonicalN' found x]
  | top found => exact absurd found (not_or.mpr ⟨sKept, nKept⟩)
  | dynamic sFound | dynamicLeft sFound => exact absurd ⟨_, sFound⟩ dynamic.1
  | dynamicRight _ _ bFound => exact absurd ⟨_, bFound⟩ (nDynamic_iff.not.mpr dynamic.2)
  | union _ _ _ _ _ unites =>
      simp only [canonical.member_iff, canonicalN'.member_iff] at unites
      have pushed : ∀ x, x ∈ members ∨ x ∈ ids' →
          ∃ ty, i.get x = some ty ∧ Side.union.Pushed ty ∧ ty ≠ Side.union.absorbing := by
        rintro x (inMembers | inIds)
        · exact canonical.pushed x inMembers
        · exact canonicalN'.pushed x inIds
      have issued : ∀ x, x ∈ members ∨ x ∈ ids' → i.Issued x := by
        intro x
        rw [← canonical.member_iff, ← canonicalN'.member_iff]
        rintro (inS | inN)
        · exact (inS.issued after.toHashConsed sIssued).1
        · exact (inN.issued after.toHashConsed (run.issued coherent nIssued)).1
      have lastRun := (unites.run after issued).1
      have collapses := unites.collapses after issued
        (fun x mem => (pushed x mem).imp fun ty holds => ⟨holds.1, holds.2.1⟩) fits
      rcases collapses with ⟨-, x, mem, found⟩ | collapsed
      · obtain ⟨ty, before, -, kept⟩ := pushed x mem
        exact absurd (Option.some.inj ((lastRun.get_eq before).symm.trans found)) kept
      · exact collapsed

/-- What the fold of `join` holds after the types `ids` of `k`. -/
structure Accumulated (k : Interner) (ids : List TypeId) (s : TypeId) (l : Interner) : Prop where
  top : (∃ n ∈ ids, k.get n = some .top) → l.get s = some .top
  folded : (∀ n ∈ ids, k.get n ≠ some .top) → Folded k l ids s
  only : ∀ d, (∀ n ∈ ids, k.get n = some .bottom ∨ n = d) → s = l.bottom ∨ s = d

theorem Accumulated.start (coherent : k.Coherent) : Accumulated k [] k.bottom k where
  top := by simp
  folded _ := Or.inr ⟨by simp, [], .empty coherent.get_bottom, by simp⟩
  only _ _ := Or.inl rfl

theorem Accumulated.step {ids : List TypeId} {s n r : TypeId} (held : Accumulated k ids s i)
    (coherent : k.Coherent) (run : Run k i) (normal : ∀ m ∈ ids ++ [n], Normal k m)
    (sIssued : i.Issued s) (nIssued : k.Issued n)
    (returns : Returns (fun fuel => join fuel i s n) (r, j)) (fits : j.Fits) :
    Accumulated k (ids ++ [n]) r j := by
  have after := run.coherent coherent
  have joins := joins_of_returns after.toHashConsed sIssued (run.issued coherent nIssued) returns
  constructor
  · rintro ⟨m, mem, found⟩
    apply joins.get_top after
    rcases List.mem_append.mp mem with inIds | isN
    · exact Or.inl (held.top ⟨m, inIds, found⟩)
    · rw [List.mem_singleton.mp isN] at found
      exact Or.inr (run.get_eq found)
  · intro noTop
    exact (held.folded fun m mem => noTop m (List.mem_append_left _ mem)).step coherent run normal
      noTop sIssued nIssued joins fits
  · intro d isD
    have sIs := held.only d fun m mem => isD m (List.mem_append_left _ mem)
    have nIs : n = i.bottom ∨ n = d := by
      rcases isD n (List.mem_append_right _ List.mem_cons_self) with bottom | same
      · exact Or.inl (after.get_injective (run.get_eq bottom) after.get_bottom)
      · exact Or.inr same
    have answers {x : TypeId} (answer : ∀ fuel, join (fuel + 1) i s n = some (x, i)) :
        r = x ∧ j = i :=
      Prod.mk.inj (returns.unique (.of_const answer))
    rcases sIs with rfl | rfl
    · obtain ⟨rfl, rfl⟩ := answers fun fuel => join_bottom_left after fuel n
      exact nIs
    · rcases nIs with rfl | rfl
      · obtain ⟨rfl, rfl⟩ := answers fun fuel => join_bottom_right after fuel s
        exact Or.inr rfl
      · obtain ⟨rfl, rfl⟩ := answers (x := n) fun fuel => by simp [join]
        exact Or.inr rfl

/-- A raw union of the normal forms `ids`, and what their fold gives. -/
theorem Accumulated.eq_iff {ids : List TypeId} {r s : TypeId} (held : Accumulated k ids s l)
    (coherent : k.Coherent) (normal : ∀ n ∈ ids, Normal k n) (run : Run k l)
    (collapses : Collapses .union k (fun x => ∃ n ∈ ids, Member .union k n x) r) :
    s = r ↔ Unmixed k ids := by
  have after := run.coherent coherent
  have later := collapses.run run coherent
  by_cases anyTop : ∃ n ∈ ids, k.get n = some .top
  · refine iff_of_true ?_ (Or.inl anyTop)
    obtain ⟨n, mem, found⟩ := anyTop
    rcases later with ⟨rTop, -⟩ | ⟨members, canonical, mem_iff⟩
    · exact after.get_injective (held.top ⟨n, mem, found⟩) rTop
    · have member := (mem_iff n).mpr ⟨n, mem, .self found Side.union.absorbing_pushed⟩
      obtain ⟨ty, found', -, kept⟩ := canonical.pushed n member
      exact absurd (Option.some.inj (found'.symm.trans (run.get_eq found))) kept
  have noTop : ∀ n ∈ ids, k.get n ≠ some .top := fun n mem found => anyTop ⟨n, mem, found⟩
  rcases held.folded noTop with ⟨sDynamic, someDynamic⟩ | ⟨noDynamic, members, canonical, mem_iff⟩
  · constructor
    · rintro rfl
      obtain ⟨facet, found⟩ := sDynamic
      rcases later with ⟨rTop, -⟩ | ⟨members, canonical, mem_iff⟩
      · exact absurd (found.symm.trans rTop) (by simp)
      obtain rfl := canonical.eq_singleton found (Side.dynamic_pushed _ facet)
      refine Or.inr (Or.inr ⟨s, fun n mem => ?_⟩)
      obtain ⟨inner, canonicalN⟩ := (normal n mem).canonical (noTop n mem)
      apply canonicalN.eq_of_forall coherent.toHashConsed
      intro x xMem
      exact List.mem_singleton.mp ((mem_iff x).mpr ⟨n, mem, canonicalN.member_iff.mpr xMem⟩)
    · rintro (top | noDynamic | ⟨d, isD⟩)
      · exact absurd top anyTop
      · obtain ⟨n, mem, dynamic⟩ := someDynamic
        exact absurd dynamic (noDynamic n mem)
      · obtain ⟨n, mem, facet, found⟩ := someDynamic
        obtain rfl := (isD n mem).resolve_left (IsDynamic.ne_bottom ⟨facet, found⟩)
        have sIs : s = n := by
          apply (held.only n isD).resolve_left
          rintro rfl
          exact sDynamic.ne_bottom after.get_bottom
        rw [sIs]
        apply (Collapses.self found (Side.dynamic_pushed .union facet)).unique coherent.toHashConsed
        apply collapses.congr
        intro x
        constructor
        · rintro ⟨m, mMem, member⟩
          rcases isD m mMem with bottom | rfl
          · exact absurd member (member_neutral bottom)
          · exact member
        · exact fun member => ⟨n, mem, member⟩
  · refine iff_of_true ?_ (Or.inr (Or.inl noDynamic))
    exact Collapses.unique after.toHashConsed (Or.inr ⟨members, canonical, mem_iff⟩) later

/-- A raw union is normalized to the fold of `join` over the normal forms of its
members exactly when these are unmixed. -/
theorem normalize_eq_fold_iff (reachable : i.Reachable) (ms : List TypeId)
    (issued : ∀ m ∈ ms, i.Issued m) :
    ∃ r j ns k s l,
      Returns (fun fuel => normalize fuel (i.intern (.union ms)).2 (i.intern (.union ms)).1) (r, j) ∧
      Returns (fun fuel => normalizeAll fuel j ms) (ns, k) ∧
      Returns (fun fuel => (Grouping.fold k.bottom ns).eval fuel k) (s, l) ∧
      (l.Fits → (s = r ↔ Unmixed k ns)) := by
  have coherent := reachable.coherent
  have unionRun : Run i (i.intern (.union ms)).2 := Run.intern .refl _ issued
  obtain ⟨r, j, normalized⟩ :=
    normalize_spec (unionRun.coherent coherent) (coherent.issued_intern (.union ms))
  have jCoherent := (unionRun.trans normalized.run).coherent coherent
  obtain ⟨ns, k, eachReturns, eachRun, nsIssued, forms⟩ :=
    normalizeAll_spec jCoherent fun m mem =>
      (unionRun.trans normalized.run).issued coherent (issued m mem)
  have kCoherent := eachRun.coherent jCoherent
  have normal (fits : k.Fits) : ∀ n ∈ ns, Normal k n := fun n mem =>
    NormalForm.normal_of_mem (forms fits) mem
  obtain ⟨s, l, folds, foldRun, -, held⟩ :=
    exists_fold (P := fun ids s l => Accumulated k ids s l) kCoherent ns nsIssued
      (Accumulated.start kCoherent) fun done n s l r j within run sIssued returns fits held => by
        have nMem : n ∈ ns := within (List.mem_append_right _ List.mem_cons_self)
        have nIssued := nsIssued n nMem
        have joins := joins_of_returns (run.coherent kCoherent).toHashConsed sIssued
          (run.issued kCoherent nIssued) returns
        have lastRun :=
          (joins.run (run.coherent kCoherent) sIssued (run.issued kCoherent nIssued)).1
        exact held.step kCoherent run
          (fun m mem => normal ((run.trans lastRun).fits fits) m (within mem)) sIssued nIssued
          returns fits
  refine ⟨r, j, ns, k, s, l, normalized.returns, eachReturns, folds, fun fits => ?_⟩
  have kFits := foldRun.fits fits
  have jFits := eachRun.fits kFits
  have rawFound : (i.intern (.union ms)).2.get (i.intern (.union ms)).1 =
      some (Side.union.build ms) :=
    coherent.get_intern (.union ms) (normalized.run.fits jFits)
  have laterRun := normalized.run.trans eachRun
  obtain ⟨chosen, each, collapses⟩ :=
    ((normalized.form jFits).run eachRun jCoherent).of_combined (laterRun.get_eq rawFound)
  apply (held fits).eq_iff kCoherent (normal kFits) foldRun
  apply collapses.congr
  intro x
  exact (NormalForm.exists_member_iff kCoherent.toHashConsed (forms kFits) each).symm

theorem issued_atomic_new {k : Nat} (small : k < 5) : new.Issued ⟨k⟩ :=
  coherent_new.issued_atomic small

/-- `new` with `Dynamic[nil]`. -/
def withDynamic : Interner :=
  (new.intern (.dynamic new.nil)).2

theorem reachable_withDynamic : withDynamic.Reachable := by
  apply Run.intern .refl
  intro child mem
  obtain rfl := List.mem_singleton.mp mem
  exact issued_atomic_new (k := 2) (by decide)

theorem issued_withDynamic {k : Nat} (small : k < 6) : withDynamic.Issued ⟨k⟩ := by
  rw [reachable_withDynamic.coherent.issued_iff]
  exact ⟨small, Nat.lt_trans small (by decide)⟩

/-- The members `true`, `nil` and `Dynamic[nil]`. -/
theorem normalize_eq_fold_withDynamic :
    ∃ r j ns k s l,
      Returns (fun fuel => normalize fuel (withDynamic.intern (.union [⟨3⟩, ⟨2⟩, ⟨5⟩])).2
        (withDynamic.intern (.union [⟨3⟩, ⟨2⟩, ⟨5⟩])).1) (r, j) ∧
      Returns (fun fuel => normalizeAll fuel j [⟨3⟩, ⟨2⟩, ⟨5⟩]) (ns, k) ∧
      Returns (fun fuel => (Grouping.fold k.bottom ns).eval fuel k) (s, l) ∧
      (l.Fits → (s = r ↔ Unmixed k ns)) := by
  apply normalize_eq_fold_iff reachable_withDynamic
  simp [issued_withDynamic]

/-- Then with the raw union of `true` and `Dynamic[nil]`. -/
def withUnion : Interner :=
  (withDynamic.intern (.union [⟨3⟩, ⟨5⟩])).2

/-- Then with `Dynamic[nil | true]`. -/
def withFold : Interner :=
  ((withUnion.intern (.union [⟨2⟩, ⟨3⟩])).2.intern (.dynamic ⟨7⟩)).2

/-- The raw union of `true` and `Dynamic[nil]` is its own normal form, while the
fold gives `Dynamic[nil | true]`. -/
theorem normalize_ne_fold :
    ∃ (i : Interner) (ms : List TypeId) (r : TypeId) (j : Interner) (ns : List TypeId)
      (k : Interner) (s : TypeId) (l : Interner), i.Reachable ∧ (∀ m ∈ ms, i.Issued m) ∧
      Returns (fun fuel => normalize fuel (i.intern (.union ms)).2 (i.intern (.union ms)).1) (r, j) ∧
      Returns (fun fuel => normalizeAll fuel j ms) (ns, k) ∧
      Returns (fun fuel => (Grouping.fold k.bottom ns).eval fuel k) (s, l) ∧
      l.Fits ∧ s ≠ r := by
  refine ⟨withDynamic, [⟨3⟩, ⟨5⟩], ⟨6⟩, withUnion, [⟨3⟩, ⟨5⟩], withUnion, ⟨8⟩, withFold,
    reachable_withDynamic, by simp [issued_withDynamic], ⟨9, fun fuel enough => ?_⟩,
    ⟨9, fun fuel enough => ?_⟩, ⟨19, fun fuel enough => ?_⟩, ?_⟩
  · obtain ⟨fuel, rfl⟩ := Nat.exists_eq_add_of_le' enough
    rfl
  · obtain ⟨fuel, rfl⟩ := Nat.exists_eq_add_of_le' enough
    rfl
  · obtain ⟨fuel, rfl⟩ := Nat.exists_eq_add_of_le' enough
    rfl
  · have room : withFold.arena.length ≤ capacity := by decide
    exact ⟨room, by decide⟩

end Interner

end Rigor.Types
