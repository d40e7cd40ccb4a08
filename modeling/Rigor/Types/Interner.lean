import Mathlib.Data.List.Nodup
import Mathlib.Logic.Relation
import Rigor.Types.Ty

/-!
# The interner

An arena of carriers with a hash-cons map.  The interner is threaded through the
functions that mutate it; `none` is a panic of the source or, in a function with
fuel, the exhaustion of the fuel.
-/

namespace Rigor.Types

/-- Arena and hash-cons map. -/
structure Interner where
  arena : List Ty
  dedup : List (Ty × TypeId)
  top : TypeId
  bottom : TypeId
  nil : TypeId
  true_ : TypeId
  false_ : TypeId

/-- The number of `u32` handles. -/
def capacity : Nat := 2 ^ 32

namespace Interner

/-- Intern a carrier.  The position of a new carrier is cast `as u32`. -/
def intern (i : Interner) (ty : Ty) : TypeId × Interner :=
  match i.dedup.lookup ty with
  | some id => (id, i)
  | none =>
      let id : TypeId := ⟨i.arena.length % capacity⟩
      (id, { i with arena := i.arena ++ [ty], dedup := (ty, id) :: i.dedup })

/-- The interner with the atomics pre-interned. -/
def new : Interner :=
  let me : Interner := ⟨[], [], ⟨0⟩, ⟨0⟩, ⟨0⟩, ⟨0⟩, ⟨0⟩⟩
  let (top, me) := me.intern .top
  let (bottom, me) := me.intern .bottom
  let (nil, me) := me.intern (.constant .nil)
  let (true_, me) := me.intern (.constant (.bool true))
  let (false_, me) := me.intern (.constant (.bool false))
  { me with top, bottom, nil, true_, false_ }

/-- Resolve a handle; indexing the arena panics outside it. -/
def get (i : Interner) (id : TypeId) : Option Ty :=
  i.arena[id.index]?

/-- `Interner::cmp`, the total order used to canonicalize member lists. -/
def cmp (i : Interner) : Nat → TypeId → TypeId → Option Ordering
  | 0, _, _ => none
  | fuel + 1, a, b =>
      if a = b then some .eq
      else
        (i.get a).bind fun ta =>
          (i.get b).bind fun tb => ta.compareWith (i.cmp fuel) tb

/-! ## Runs -/

/-- The handle was returned by an earlier `intern`. -/
def Issued (i : Interner) (id : TypeId) : Prop :=
  ∃ ty, i.dedup.lookup ty = some id

/-- One `intern` call whose child handles were issued before. -/
def Step (i j : Interner) : Prop :=
  ∃ ty : Ty, (∀ child ∈ ty.children, i.Issued child) ∧ j = (i.intern ty).2

/-- Any number of `intern` calls. -/
def Run : Interner → Interner → Prop :=
  Relation.ReflTransGen Step

def Reachable (i : Interner) : Prop :=
  Run new i

/-- Every carrier of the arena has a handle of its own. -/
def Fits (i : Interner) : Prop :=
  i.arena.length ≤ capacity

/-- The carriers that `new` interns, in order. -/
def atomics : List Ty :=
  [.top, .bottom, .constant .nil, .constant (.bool true), .constant (.bool false)]

/-- Arena and hash-cons map agree, and children come before their parents. -/
structure HashConsed (i : Interner) : Prop where
  nodup : i.arena.Nodup
  lookup_iff : ∀ ty id, i.dedup.lookup ty = some id ↔
    ∃ k : Nat, i.arena[k]? = some ty ∧ id = ⟨k % capacity⟩
  child_lt : ∀ (k : Nat) (ty : Ty), i.arena[k]? = some ty →
    ∀ child ∈ ty.children, child.index < k

/-- The invariant of runs. -/
structure Coherent (i : Interner) : Prop extends HashConsed i where
  atomics : atomics <+: i.arena
  top : i.top = ⟨0⟩
  bottom : i.bottom = ⟨1⟩

variable {i j : Interner} {ty : Ty}

theorem getElem?_append_singleton_iff {α : Type} {items : List α} {item other : α} {k : Nat} :
    (items ++ [item])[k]? = some other ↔
      items[k]? = some other ∨ k = items.length ∧ item = other := by
  rcases Nat.lt_trichotomy k items.length with before | rfl | after
  · simp [List.getElem?_append_left before, Nat.ne_of_lt before]
  · simp
  · simp [List.getElem?_append_right (Nat.le_of_lt after), List.getElem?_eq_none (Nat.le_of_lt after),
      Nat.ne_of_gt after, Nat.sub_ne_zero_of_lt after]

theorem mem_arena_iff : ty ∈ i.arena ↔ ∃ k : Nat, i.arena[k]? = some ty :=
  List.mem_iff_getElem?

theorem get_eq_some_lt {id : TypeId} (found : i.get id = some ty) :
    id.index < i.arena.length :=
  (List.getElem?_eq_some_iff.mp found).1

theorem exists_get {id : TypeId} (inRange : id.index < i.arena.length) :
    ∃ ty, i.get id = some ty :=
  ⟨i.arena[id.index], List.getElem?_eq_getElem inRange⟩

namespace HashConsed

/-- What `intern` does: find the position of the carrier, or append it. -/
theorem intern_cases (hashed : i.HashConsed) (ty : Ty) :
    (∃ k : Nat, i.arena[k]? = some ty ∧ i.intern ty = (⟨k % capacity⟩, i)) ∨
      ty ∉ i.arena ∧ (i.intern ty).1 = ⟨i.arena.length % capacity⟩ ∧
        (i.intern ty).2 = { i with
          arena := i.arena ++ [ty]
          dedup := (ty, ⟨i.arena.length % capacity⟩) :: i.dedup } := by
  unfold intern
  cases looked : i.dedup.lookup ty with
  | some id =>
      obtain ⟨k, found, rfl⟩ := (hashed.lookup_iff ty id).mp looked
      exact Or.inl ⟨k, found, rfl⟩
  | none =>
      refine Or.inr ⟨?_, rfl, rfl⟩
      rw [mem_arena_iff]
      rintro ⟨k, found⟩
      rw [(hashed.lookup_iff ty ⟨k % capacity⟩).mpr ⟨k, found, rfl⟩] at looked
      exact absurd looked (Option.some_ne_none _)

/-- The issued handles are the `u32` positions of the arena. -/
theorem issued_iff (hashed : i.HashConsed) {id : TypeId} :
    i.Issued id ↔ id.index < i.arena.length ∧ id.index < capacity := by
  constructor
  · rintro ⟨ty, looked⟩
    obtain ⟨k, found, rfl⟩ := (hashed.lookup_iff ty id).mp looked
    have inRange := (List.getElem?_eq_some_iff.mp found).1
    exact ⟨Nat.lt_of_le_of_lt (Nat.mod_le k capacity) inRange, Nat.mod_lt _ (by decide)⟩
  · rintro ⟨inRange, small⟩
    refine ⟨i.arena[id.index], (hashed.lookup_iff _ _).mpr ⟨id.index, ?_, ?_⟩⟩
    · exact List.getElem?_eq_getElem inRange
    · rw [Nat.mod_eq_of_lt small]

theorem issued_lt (hashed : i.HashConsed) {id : TypeId} (issued : i.Issued id) :
    id.index < i.arena.length :=
  (hashed.issued_iff.mp issued).1

theorem exists_get_of_issued (hashed : i.HashConsed) {id : TypeId} (issued : i.Issued id) :
    ∃ ty, i.get id = some ty :=
  exists_get (hashed.issued_lt issued)

/-- The children of an issued carrier were issued before it. -/
theorem child_issued (hashed : i.HashConsed) {id child : TypeId} (issued : i.Issued id)
    (found : i.get id = some ty) (childMem : child ∈ ty.children) :
    child.index < id.index ∧ i.Issued child := by
  have below := hashed.child_lt id.index ty found child childMem
  have bounds := hashed.issued_iff.mp issued
  exact ⟨below, hashed.issued_iff.mpr
    ⟨Nat.lt_trans below bounds.1, Nat.lt_trans below bounds.2⟩⟩

theorem get_injective (hashed : i.HashConsed) {a b : TypeId} (aFound : i.get a = some ty)
    (bFound : i.get b = some ty) : a = b := by
  have same := (List.getElem?_inj (get_eq_some_lt aFound) hashed.nodup).mp
    (aFound.trans bFound.symm)
  cases a
  cases b
  simpa using same

/-- Appending a new carrier whose children were issued keeps the invariant. -/
theorem append (hashed : i.HashConsed) (fresh : ty ∉ i.arena)
    (childrenIssued : ∀ child ∈ ty.children, i.Issued child) :
    HashConsed { i with
      arena := i.arena ++ [ty]
      dedup := (ty, ⟨i.arena.length % capacity⟩) :: i.dedup } where
  nodup := by
    refine List.nodup_append'.mpr ⟨hashed.nodup, List.nodup_singleton ty, ?_⟩
    simpa using fresh
  lookup_iff other id := by
    simp only [getElem?_append_singleton_iff]
    by_cases same : other = ty
    · subst same
      have never (k : Nat) : i.arena[k]? ≠ some other := fun found =>
        fresh (mem_arena_iff.mpr ⟨k, found⟩)
      simp [never, eq_comm]
    · have skip : (other == ty) = false := by simpa using same
      simp [List.lookup_cons, skip, hashed.lookup_iff other id, Ne.symm same]
  child_lt k other found child childMem := by
    rcases getElem?_append_singleton_iff.mp found with old | ⟨rfl, rfl⟩
    · exact hashed.child_lt k other old child childMem
    · exact hashed.issued_lt (childrenIssued child childMem)

/-- The handle that `intern` answers is issued. -/
theorem issued_intern (hashed : i.HashConsed) (ty : Ty) :
    (i.intern ty).2.Issued (i.intern ty).1 := by
  rcases hashed.intern_cases ty with ⟨k, found, same⟩ | ⟨-, handle, grown⟩
  · rw [same]
    exact ⟨ty, (hashed.lookup_iff ty _).mpr ⟨k, found, rfl⟩⟩
  · rw [handle, grown]
    exact ⟨ty, by simp⟩

/-- Interning a carrier and looking the handle up gives the carrier back. -/
theorem get_intern (hashed : i.HashConsed) (ty : Ty) (fits : (i.intern ty).2.Fits) :
    (i.intern ty).2.get (i.intern ty).1 = some ty := by
  rcases hashed.intern_cases ty with ⟨k, found, same⟩ | ⟨-, handle, grown⟩
  · rw [same] at fits ⊢
    have inRange := (List.getElem?_eq_some_iff.mp found).1
    rw [Nat.mod_eq_of_lt (Nat.lt_of_lt_of_le inRange fits)]
    exact found
  · rw [grown] at fits
    have room : i.arena.length + 1 ≤ capacity := by simpa [Fits] using fits
    rw [handle, grown, Nat.mod_eq_of_lt room]
    simp [get]

theorem of_intern (hashed : i.HashConsed) (childrenIssued : ∀ child ∈ ty.children, i.Issued child) :
    (i.intern ty).2.HashConsed := by
  rcases hashed.intern_cases ty with ⟨k, -, same⟩ | ⟨fresh, -, grown⟩
  · rw [same]
    exact hashed
  · rw [grown]
    exact hashed.append fresh childrenIssued

end HashConsed

theorem coherent_new : new.Coherent where
  toHashConsed := by
    have empty : HashConsed ⟨[], [], ⟨0⟩, ⟨0⟩, ⟨0⟩, ⟨0⟩, ⟨0⟩⟩ :=
      ⟨List.nodup_nil, by simp, by simp⟩
    have atom {i : Interner} (hashed : i.HashConsed) (ty : Ty) (leaf : ty.children = []) :
        (i.intern ty).2.HashConsed :=
      hashed.of_intern (by simp [leaf])
    have interned := atom (atom (atom (atom (atom empty .top rfl) .bottom rfl)
      (.constant .nil) rfl) (.constant (.bool true)) rfl) (.constant (.bool false)) rfl
    exact ⟨interned.nodup, interned.lookup_iff, interned.child_lt⟩
  atomics := List.prefix_refl _
  top := rfl
  bottom := rfl

/-! ## Steps and runs -/

namespace Step

theorem arena_prefix (step : Step i j) : i.arena <+: j.arena := by
  obtain ⟨ty, -, rfl⟩ := step
  unfold intern
  split
  · exact List.prefix_refl _
  · exact List.prefix_append _ _

theorem coherent (step : Step i j) (before : i.Coherent) : j.Coherent := by
  have grown := step.arena_prefix
  obtain ⟨ty, childrenIssued, rfl⟩ := step
  have handles : (i.intern ty).2.top = i.top ∧ (i.intern ty).2.bottom = i.bottom := by
    unfold intern
    split <;> exact ⟨rfl, rfl⟩
  exact ⟨before.of_intern childrenIssued, before.atomics.trans grown, handles.1.trans before.top,
    handles.2.trans before.bottom⟩

end Step

namespace Run

theorem trans {k : Interner} (first : Run i j) (second : Run j k) : Run i k :=
  Relation.ReflTransGen.trans first second

theorem coherent (run : Run i j) (before : i.Coherent) : j.Coherent := by
  induction run with
  | refl => exact before
  | tail _ step ih => exact step.coherent ih

theorem arena_prefix (run : Run i j) : i.arena <+: j.arena := by
  induction run with
  | refl => exact List.prefix_refl _
  | tail _ step ih => exact ih.trans step.arena_prefix

theorem fits (run : Run i j) (later : j.Fits) : i.Fits :=
  Nat.le_trans run.arena_prefix.length_le later

theorem handles_eq (run : Run i j) (before : i.Coherent) :
    j.top = i.top ∧ j.bottom = i.bottom := by
  have after := run.coherent before
  exact ⟨after.top.trans before.top.symm, after.bottom.trans before.bottom.symm⟩

theorem intern (run : Run i j) (ty : Ty) (childrenIssued : ∀ child ∈ ty.children, j.Issued child) :
    Run i (j.intern ty).2 :=
  run.tail ⟨ty, childrenIssued, rfl⟩

/-- Later interns keep the carriers of earlier handles. -/
theorem get_eq (run : Run i j) {id : TypeId} (found : i.get id = some ty) :
    j.get id = some ty := by
  obtain ⟨rest, grown⟩ := run.arena_prefix
  unfold get at found ⊢
  rw [← grown, List.getElem?_append_left (get_eq_some_lt found), found]

end Run

theorem Run.issued (run : Run i j) (before : i.Coherent) {id : TypeId} (issued : i.Issued id) :
    j.Issued id := by
  have bounds := before.issued_iff.mp issued
  exact (run.coherent before).issued_iff.mpr
    ⟨Nat.lt_of_lt_of_le bounds.1 run.arena_prefix.length_le, bounds.2⟩

namespace Coherent

/-- The pre-interned atomics keep their positions. -/
theorem get_atomic (coherent : i.Coherent) {k : Nat} (found : Interner.atomics[k]? = some ty) :
    i.get ⟨k⟩ = some ty := by
  obtain ⟨rest, grown⟩ := coherent.atomics
  have inRange := (List.getElem?_eq_some_iff.mp found).1
  rw [get, ← grown, List.getElem?_append_left inRange, found]

theorem get_top (coherent : i.Coherent) : i.get i.top = some .top := by
  rw [coherent.top]
  exact coherent.get_atomic rfl

theorem get_bottom (coherent : i.Coherent) : i.get i.bottom = some .bottom := by
  rw [coherent.bottom]
  exact coherent.get_atomic rfl

theorem issued_atomic (coherent : i.Coherent) {k : Nat} (small : k < 5) : i.Issued ⟨k⟩ := by
  have long : 5 ≤ i.arena.length := coherent.atomics.length_le
  have room : 5 ≤ capacity := by decide
  exact coherent.issued_iff.mpr ⟨Nat.lt_of_lt_of_le small long, Nat.lt_of_lt_of_le small room⟩

theorem issued_top (coherent : i.Coherent) : i.Issued i.top := by
  rw [coherent.top]
  exact coherent.issued_atomic (by decide)

theorem issued_bottom (coherent : i.Coherent) : i.Issued i.bottom := by
  rw [coherent.bottom]
  exact coherent.issued_atomic (by decide)

end Coherent

theorem Reachable.coherent (reachable : i.Reachable) : i.Coherent :=
  Run.coherent reachable coherent_new

end Interner

end Rigor.Types
