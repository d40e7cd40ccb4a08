import Mathlib.Data.Finset.Lattice.Fold
import Rigor.Types.Faithful
import Rigor.Types.Meaning

/-!
# The laws of `join`

On normalized types `join` is a semilattice operation, as equality of the handles
answered in a run, so any order and grouping of a set of types gives one handle.
The laws hold of every run that keeps within the `u32` handles, and fail in a run
that does not.
-/

namespace Rigor.Types

open Rigor.Library.Fuel Rigor.Library.Order

/-- A way to join a list of types: its order and its parentheses. -/
inductive Grouping where
  | leaf (id : TypeId)
  | join (left right : Grouping)

namespace Grouping

def leaves : Grouping → List TypeId
  | leaf id => [id]
  | join left right => left.leaves ++ right.leaves

/-- Join from left to right, threading the interner. -/
def eval (fuel : Nat) : Interner → Grouping → Interner.Outcome
  | i, leaf id => some (id, i)
  | i, join left right =>
      (eval fuel i left).bind fun first =>
        (eval fuel first.2 right).bind fun second =>
          Interner.join fuel second.2 first.1 second.1

end Grouping

namespace Interner

variable {i j k l : Interner}

/-- Issued, and built from atoms by `Dynamic` and `join`. -/
def Normalized (i : Interner) (a : TypeId) : Prop :=
  i.Issued a ∧ ∃ meaning, Means i a meaning

theorem Normalized.run {a : TypeId} (normalized : i.Normalized a) (run : Run i j)
    (before : i.Coherent) : j.Normalized a := by
  obtain ⟨issued, meaning, means⟩ := normalized
  exact ⟨run.issued before issued, meaning, means.run run before⟩

theorem exists_eval (coherent : i.Coherent) (g : Grouping) (issued : ∀ a ∈ g.leaves, i.Issued a) :
    ∃ r j, Returns (fun fuel => g.eval fuel i) (r, j) ∧ Run i j ∧ j.Issued r ∧
      ∀ meaning : TypeId → Meaning TypeId, (∀ a ∈ g.leaves, Means i a (meaning a)) → j.Fits →
        Means j r (g.leaves.toFinset.sup meaning) := by
  induction g generalizing i with
  | leaf a =>
      refine ⟨a, i, .of_const fun _ => rfl, .refl, issued a List.mem_cons_self, ?_⟩
      intro meaning means _
      simpa [Grouping.leaves] using means a List.mem_cons_self
  | join left right ihLeft ihRight =>
      simp only [Grouping.leaves, List.mem_append] at issued
      obtain ⟨x, i₁, leftReturns, leftRun, xIssued, leftMeans⟩ :=
        ihLeft coherent fun a mem => issued a (Or.inl mem)
      have coherent₁ := leftRun.coherent coherent
      obtain ⟨y, i₂, rightReturns, rightRun, yIssued, rightMeans⟩ :=
        ihRight coherent₁ fun a mem => leftRun.issued coherent (issued a (Or.inr mem))
      have coherent₂ := rightRun.coherent coherent₁
      have xIssued₂ := rightRun.issued coherent₁ xIssued
      obtain ⟨r, j, answers, joins⟩ := exists_joins coherent₂.toHashConsed xIssued₂ yIssued
      have joinRun := joins.run coherent₂ xIssued₂ yIssued
      refine ⟨r, j, ?_, leftRun.trans (rightRun.trans joinRun.1), joinRun.2, ?_⟩
      · exact leftReturns.bind (rightReturns.bind ⟨_, answers⟩)
      · intro meaning means fits
        simp only [Grouping.leaves, List.mem_append] at means
        have fits₂ := joinRun.1.fits fits
        have xMeans := leftMeans meaning (fun a mem => means a (Or.inl mem)) (rightRun.fits fits₂)
        have yMeans := rightMeans meaning
          (fun a mem => (means a (Or.inr mem)).run leftRun coherent) fits₂
        rw [Grouping.leaves, List.toFinset_append, Finset.sup_union]
        exact joins.means coherent₂ xIssued₂ yIssued (xMeans.run rightRun coherent₁) yMeans fits

/-- Groupings of one set of types give one handle. -/
theorem eval_eq (coherent : i.Coherent) {g g' : Grouping}
    (normalized : ∀ a ∈ g.leaves, i.Normalized a) (sameLeaves : ∀ a, a ∈ g.leaves ↔ a ∈ g'.leaves)
    {r s : TypeId} (returns : Returns (fun fuel => g.eval fuel i) (r, j)) (between : Run j k)
    (returns' : Returns (fun fuel => g'.eval fuel k) (s, l)) (fits : l.Fits) : s = r := by
  obtain ⟨r₀, j₀, returns₀, run, -, means⟩ :=
    exists_eval coherent g fun a mem => (normalized a mem).1
  obtain ⟨rfl, rfl⟩ := Prod.mk.inj (returns.unique returns₀)
  have whole := run.trans between
  have coherent' := whole.coherent coherent
  have normalized' : ∀ a ∈ g'.leaves, k.Normalized a := fun a mem =>
    (normalized a ((sameLeaves a).mpr mem)).run whole coherent
  obtain ⟨s₀, l₀, returns₁, run', -, means'⟩ :=
    exists_eval coherent' g' fun a mem => (normalized' a mem).1
  obtain ⟨rfl, rfl⟩ := Prod.mk.inj (returns'.unique returns₁)
  have later := between.trans run'
  have hasMeaning : ∀ a ∈ g.leaves, ∃ meaning, Means i a meaning := fun a mem =>
    (normalized a mem).2
  choose! meaning leafMeans using hasMeaning
  have rMeans := (means meaning leafMeans (later.fits fits)).run later (run.coherent coherent)
  have sMeans := means' meaning
    (fun a mem => (leafMeans a ((sameLeaves a).mpr mem)).run whole coherent) fits
  have sameSet : g.leaves.toFinset = g'.leaves.toFinset := by
    ext a
    rw [List.mem_toFinset, List.mem_toFinset, sameLeaves]
  rw [← sameSet] at sMeans
  exact sMeans.injective (later.coherent (run.coherent coherent)).toHashConsed rMeans

/-! ## Bottom and top -/

theorem join_bottom_left (coherent : i.Coherent) (fuel : Nat) (a : TypeId) :
    join (fuel + 1) i i.bottom a = some (a, i) := by
  rw [join]
  split
  · rename_i same
    rw [same]
  · simp [isBottom, coherent.get_bottom]

theorem join_bottom_right (coherent : i.Coherent) (fuel : Nat) (a : TypeId) :
    join (fuel + 1) i a i.bottom = some (a, i) := by
  rw [join]
  split
  · rfl
  · rename_i distinct
    have notBottom : i.isBottom a = false := by
      rw [isBottom, decide_eq_false_iff_not]
      intro found
      exact distinct (coherent.get_injective found coherent.get_bottom)
    rw [notBottom, if_neg Bool.false_ne_true]
    simp [isBottom, coherent.get_bottom]

theorem join_top_left (coherent : i.Coherent) (fuel : Nat) (a : TypeId) :
    join (fuel + 1) i i.top a = some (i.top, i) := by
  rw [join]
  split
  · rfl
  · simp [isBottom, isPlainTop, coherent.get_top]

theorem join_top_right (coherent : i.Coherent) (fuel : Nat) (a : TypeId) :
    join (fuel + 1) i a i.top = some (i.top, i) := by
  rw [join]
  split
  · rename_i same
    rw [same]
  · simp [isBottom, isPlainTop, coherent.get_top]

/-- The laws of `join` in a state of a run, on normalized types and for the runs
that end in an admitted state. -/
structure JoinLaws (i : Interner) (Admitted : Interner → Prop) : Prop where
  /-- Atoms are normalized, and so is what `Dynamic` and `join` build. -/
  atom : ∀ a ty, i.Issued a → i.get a = some ty → ty.Atomic → i.Normalized a
  dynamic : ∀ facet, i.Normalized facet → Admitted (i.intern (.dynamic facet)).2 →
    (i.intern (.dynamic facet)).2.Normalized (i.intern (.dynamic facet)).1
  returns : ∀ a b, i.Normalized a → i.Normalized b → ∃ r j,
    Returns (fun fuel => join fuel i a b) (r, j) ∧ Run i j ∧ (Admitted j → j.Normalized r)
  commutative : ∀ a b r j s k, i.Normalized a → i.Normalized b →
    Returns (fun fuel => join fuel i a b) (r, j) →
    Returns (fun fuel => join fuel j b a) (s, k) → Admitted k → s = r
  associative : ∀ a b c x i₁ y i₂ z i₃ w i₄, i.Normalized a → i.Normalized b → i.Normalized c →
    Returns (fun fuel => join fuel i a b) (x, i₁) →
    Returns (fun fuel => join fuel i₁ x c) (y, i₂) →
    Returns (fun fuel => join fuel i₂ b c) (z, i₃) →
    Returns (fun fuel => join fuel i₃ a z) (w, i₄) → Admitted i₄ → w = y
  idempotent : ∀ a, Returns (fun fuel => join fuel i a a) (a, i)
  bottom : ∀ a, i.Normalized a → Returns (fun fuel => join fuel i i.bottom a) (a, i) ∧
    Returns (fun fuel => join fuel i a i.bottom) (a, i)
  top : ∀ a, i.Normalized a → Returns (fun fuel => join fuel i i.top a) (i.top, i) ∧
    Returns (fun fuel => join fuel i a i.top) (i.top, i)
  /-- Any two orders and groupings of one set of types. -/
  regroup : ∀ (g g' : Grouping) r j k s l, (∀ a ∈ g.leaves, i.Normalized a) →
    (∀ a, a ∈ g.leaves ↔ a ∈ g'.leaves) →
    Returns (fun fuel => g.eval fuel i) (r, j) → Run j k →
    Returns (fun fuel => g'.eval fuel k) (s, l) → Admitted l → s = r

/-- In every state of a run the laws hold as long as the handles suffice. -/
theorem joinLaws (reachable : i.Reachable) : i.JoinLaws Fits := by
  have coherent := reachable.coherent
  have regroup (g g' : Grouping) (r : TypeId) (j k : Interner) (s : TypeId) (l : Interner)
      (normalized : ∀ a ∈ g.leaves, i.Normalized a)
      (sameLeaves : ∀ a, a ∈ g.leaves ↔ a ∈ g'.leaves)
      (returns : Returns (fun fuel => g.eval fuel i) (r, j)) (between : Run j k)
      (returns' : Returns (fun fuel => g'.eval fuel k) (s, l)) (fits : l.Fits) : s = r :=
    eval_eq coherent normalized sameLeaves returns between returns' fits
  constructor
  · intro a ty issued found atomic
    have sorted : SortedAtoms i [a] :=
      ⟨List.pairwise_singleton _ _, by simpa using ⟨ty, found, atomic⟩⟩
    exact ⟨issued, _, .atoms sorted rfl⟩
  · rintro facet ⟨issued, meaning, means⟩ fits
    exact ⟨coherent.issued_intern _, _, means.intern_dynamic coherent issued fits⟩
  · rintro a b ⟨aIssued, first, meansA⟩ ⟨bIssued, second, meansB⟩
    obtain ⟨r, j, answers, joins⟩ := exists_joins coherent.toHashConsed aIssued bIssued
    have run := joins.run coherent aIssued bIssued
    refine ⟨r, j, ⟨_, answers⟩, run.1, fun fits => ⟨run.2, first ⊔ second, ?_⟩⟩
    exact joins.means coherent aIssued bIssued meansA meansB fits
  · intro a b r j s k aNormalized bNormalized returns returns' fits
    apply regroup (.join (.leaf a) (.leaf b)) (.join (.leaf b) (.leaf a)) r j j s k _ _ returns
      .refl returns' fits
    · simp [Grouping.leaves, aNormalized, bNormalized]
    · simp [Grouping.leaves, or_comm]
  · intro a b c x i₁ y i₂ z i₃ w i₄ aNormalized bNormalized cNormalized xReturns yReturns
      zReturns wReturns fits
    apply regroup (.join (.join (.leaf a) (.leaf b)) (.leaf c))
      (.join (.leaf a) (.join (.leaf b) (.leaf c))) y i₂ i₂ w i₄ _ _ _ .refl _ fits
    · simp [Grouping.leaves, aNormalized, bNormalized, cNormalized]
    · simp [Grouping.leaves]
    · exact xReturns.bind yReturns
    · exact zReturns.bind wReturns
  · intro a
    exact .of_const fun fuel => by simp [join]
  · intro a _
    constructor
    · exact .of_const fun fuel => join_bottom_left coherent fuel a
    · exact .of_const fun fuel => join_bottom_right coherent fuel a
  · intro a _
    constructor
    · exact .of_const fun fuel => join_top_left coherent fuel a
    · exact .of_const fun fuel => join_top_right coherent fuel a
  · exact regroup

theorem joinLaws_filled_three : (filled 3).JoinLaws Fits :=
  joinLaws (filled_spec 3 (by decide)).1

/-! ## Without room -/

/-- The union of two atoms takes the next handle if it is new. -/
theorem Joins.fresh {a b r : TypeId} {ta tb : Ty} (joins : Joins i a b r j)
    (hashed : i.HashConsed) (distinct : a ≠ b) (aFound : i.get a = some ta) (aAtomic : ta.Atomic)
    (bFound : i.get b = some tb) (bAtomic : tb.Atomic)
    (new : ∀ members, a ∈ members → b ∈ members → .union members ∉ i.arena) :
    r = ⟨i.arena.length % capacity⟩ ∧ ∃ members, (∀ m, m ∈ members ↔ m = a ∨ m = b) ∧
      j.arena = i.arena ++ [.union members] := by
  have aIs {ty : Ty} (found : i.get a = some ty) : ty = ta := by
    simpa [aFound, eq_comm] using found
  have bIs {ty : Ty} (found : i.get b = some ty) : ty = tb := by
    simpa [bFound, eq_comm] using found
  cases joins with
  | same => exact absurd rfl distinct
  | bottomLeft found => exact absurd (aIs found).symm aAtomic.1.2.1
  | bottomRight found => exact absurd (bIs found).symm bAtomic.1.2.1
  | top found =>
      rcases found with found | found
      · exact absurd (aIs found).symm aAtomic.1.1
      · exact absurd (bIs found).symm bAtomic.1.1
  | dynamic found | dynamicLeft found => exact absurd (aIs found).symm (aAtomic.1.2.2 _)
  | dynamicRight _ _ found => exact absurd (bIs found).symm (bAtomic.1.2.2 _)
  | union _ _ _ _ _ unites =>
      have member (m : TypeId) : Member .union i a m ∨ Member .union i b m ↔ m = a ∨ m = b :=
        or_congr (member_self_iff aFound aAtomic.2) (member_self_iff bFound bAtomic.2)
      simp only [member] at unites
      cases unites with
      | absorbed mem found =>
          rcases mem with rfl | rfl
          · exact absurd (aIs found).symm aAtomic.1.1
          · exact absurd (bIs found).symm bAtomic.1.1
      | @sorted ids _ _ mem_iff =>
          have aMem := (mem_iff a).mpr (Or.inl rfl)
          have bMem := (mem_iff b).mpr (Or.inr rfl)
          rcases ids with _ | ⟨first, _ | ⟨second, rest⟩⟩
          · exact absurd aMem (by simp)
          · rw [List.mem_singleton] at aMem bMem
            exact absurd (aMem.trans bMem.symm) distinct
          · rcases hashed.intern_cases (.union (first :: second :: rest)) with
              ⟨k, found, -⟩ | ⟨-, handle, grown⟩
            · exact absurd (List.mem_of_getElem? found) (new _ aMem bMem)
            · exact ⟨handle, _, mem_iff, congrArg Interner.arena grown⟩

/-- The literals `0`, `1`, `2` of a filled arena. -/
theorem get_filled {n k : Nat} (bound : n ≤ 2 ^ 63) (below : k < n) :
    (filled n).get ⟨5 + k⟩ = some (.constant (.int (Int64.ofNat k))) := by
  rw [get, (filled_spec n bound).2, List.getElem?_append_right (by simp [atomics])]
  simp [atomics, below]

theorem union_notMem_filled {n : Nat} (bound : n ≤ 2 ^ 63) (members : List TypeId) :
    .union members ∉ (filled n).arena := by
  rw [(filled_spec n bound).2]
  simp [atomics]

theorem atomic_constant (scalar : Scalar) : (.constant scalar : Ty).Atomic := by
  simp [Carrier.Atomic, Carrier.Plain, Carrier.Pushed, Side.Pushed]

/-- In a full arena `join` is not associative: the union of the first two
literals is answered as `top`, that of the last two as `bottom`. -/
theorem not_joinLaws_filled :
    (filled (2 ^ 32 - 5)).Reachable ∧ ¬ (filled (2 ^ 32 - 5)).JoinLaws fun _ => True := by
  have bound : 2 ^ 32 - 5 ≤ 2 ^ 63 := by decide
  have full : (filled (2 ^ 32 - 5)).arena.length = capacity := by
    rw [length_filled bound]
    rfl
  have reachable := (filled_spec _ bound).1
  have literal {k : Nat} (below : k < 3) :
      (filled (2 ^ 32 - 5)).get ⟨5 + k⟩ = some (.constant (.int (Int64.ofNat k))) :=
    get_filled bound (Nat.lt_trans below (by decide))
  have unions := union_notMem_filled bound
  generalize filled (2 ^ 32 - 5) = i at full reachable literal unions
  refine ⟨reachable, fun laws => ?_⟩
  have coherent := reachable.coherent
  have literalIssued {k : Nat} (below : k < 3) : i.Issued ⟨5 + k⟩ :=
    coherent.issued_iff.mpr ⟨get_eq_some_lt (literal below),
      Nat.lt_trans (Nat.add_lt_add_left below 5) (by decide)⟩
  have normalized {k : Nat} (below : k < 3) : i.Normalized ⟨5 + k⟩ :=
    laws.atom _ _ (literalIssued below) (literal below) (atomic_constant _)
  -- `0 | 1` is answered as `top`
  obtain ⟨x, i₁, xAnswers, xJoins⟩ := exists_joins coherent.toHashConsed
    (literalIssued (k := 0) (by decide)) (literalIssued (k := 1) (by decide))
  have run₁ := (xJoins.run coherent (literalIssued (by decide)) (literalIssued (by decide))).1
  have coherent₁ := run₁.coherent coherent
  obtain ⟨xHandle, members, members_iff, arena₁⟩ := xJoins.fresh coherent.toHashConsed (by decide)
    (literal (by decide)) (atomic_constant _) (literal (by decide)) (atomic_constant _)
    fun members _ _ => unions members
  have xTop : x = i₁.top := by
    rw [xHandle, full, Nat.mod_self, coherent₁.top]
  -- `1 | 2` is answered as `bottom`
  have literalIssued₁ {k : Nat} (below : k < 3) := run₁.issued coherent (literalIssued below)
  obtain ⟨z, i₃, zAnswers, zJoins⟩ := exists_joins coherent₁.toHashConsed
    (literalIssued₁ (k := 1) (by decide)) (literalIssued₁ (k := 2) (by decide))
  have coherent₃ :=
    (zJoins.run coherent₁ (literalIssued₁ (by decide)) (literalIssued₁ (by decide))).1.coherent
      coherent₁
  have newUnion (ids : List TypeId) (_ : ⟨5 + 1⟩ ∈ ids) (twoMem : ⟨5 + 2⟩ ∈ ids) :
      .union ids ∉ i₁.arena := by
    rw [arena₁, List.mem_append, List.mem_singleton, not_or]
    refine ⟨unions ids, fun same => ?_⟩
    obtain rfl := Carrier.union.inj same
    exact absurd ((members_iff _).mp twoMem) (by decide)
  obtain ⟨zHandle, -⟩ := zJoins.fresh coherent₁.toHashConsed (by decide)
    (run₁.get_eq (literal (by decide))) (atomic_constant _)
    (run₁.get_eq (literal (by decide))) (atomic_constant _) newUnion
  have zBottom : z = i₃.bottom := by
    rw [zHandle, arena₁, List.length_append, full, coherent₃.bottom, List.length_singleton,
      Nat.add_mod_left]
    rfl
  have same := laws.associative ⟨5 + 0⟩ ⟨5 + 1⟩ ⟨5 + 2⟩ x i₁ i₁.top i₁ z i₃ ⟨5 + 0⟩ i₃
    (normalized (by decide)) (normalized (by decide)) (normalized (by decide)) ⟨_, xAnswers⟩
    (.of_const fun fuel => xTop ▸ join_top_left coherent₁ fuel _) ⟨_, zAnswers⟩
    (.of_const fun fuel => zBottom ▸ join_bottom_right coherent₃ fuel _) trivial
  rw [coherent₁.top] at same
  exact absurd same (by decide)

end Interner

end Rigor.Types
