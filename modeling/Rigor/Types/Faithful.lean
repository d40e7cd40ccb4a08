import Mathlib.Data.Set.Finite.Basic
import Rigor.Types.Compare

/-!
# Interning is faithful while there is room

Everything the interner promises over a run holds of every reachable state,
except that handles identify carriers: that holds exactly while the arena has
fewer carriers than there are `u32` handles.  The next carrier gets the handle of
an earlier one.
-/

namespace Rigor.Types

open Rigor.Library.Order

namespace Interner

variable {i j : Interner}

/-- What the interner promises in a state of a run. -/
structure Faithful (i : Interner) : Prop where
  /-- Interning a carrier and looking the handle up gives the carrier back. -/
  get_intern : ∀ ty : Ty, (∀ child ∈ ty.children, i.Issued child) →
    (i.intern ty).2.get (i.intern ty).1 = some ty
  /-- Interning the carrier of a handle gives the handle back. -/
  intern_get : ∀ id, i.Issued id → ∃ ty, i.get id = some ty ∧ i.intern ty = (id, i)
  /-- A carrier interned before keeps its handle, and a handle its carrier. -/
  stable : ∀ j, Run i j → (∀ ty ∈ i.arena, (j.intern ty).1 = (i.intern ty).1) ∧
    ∀ id, i.Issued id → j.get id = i.get id
  /-- Children are stored below their parent. -/
  child_lt : ∀ id ty, i.get id = some ty → ∀ child ∈ ty.children, child.index < id.index
  /-- `cmp` answers, whatever the fuel, once there is enough of it. -/
  cmp_terminates : ∀ a b, i.Issued a → i.Issued b →
    ∀ fuel, a.index < fuel → i.cmp fuel a b = some (i.order a b)
  /-- The answers are a linear order, with `eq` on identical handles only. -/
  cmp_linear : LinearOn i.Issued i.order
  /-- The answers depend only on the resolved structure. -/
  cmp_structural : ∀ j, Reachable j → ∀ a b a' b', i.Issued a → i.Issued b → j.Issued a' →
    j.Issued b' → i.resolve a = j.resolve a' → i.resolve b = j.resolve b' →
      i.order a b = j.order a' b'

/-- There is always a carrier that was not interned yet. -/
theorem exists_fresh (i : Interner) : ∃ ty : Ty, ty.children = [] ∧ ty ∉ i.arena := by
  have distinct : Function.Injective fun n : Nat =>
      (Carrier.constant (.str (List.replicate n 'a')) : Ty) := by
    intro m n same
    simpa using congrArg List.length (Scalar.str.inj (Carrier.constant.inj same))
  obtain ⟨ty, ⟨n, rfl⟩, fresh⟩ :=
    (Set.infinite_range_of_injective distinct).exists_notMem_finset i.arena.toFinset
  exact ⟨_, rfl, by simpa using fresh⟩

namespace HashConsed

/-- While there is room, the handles are the positions of the arena. -/
theorem issued_iff_inRange (hashed : i.HashConsed) (fits : i.Fits) {id : TypeId} :
    i.Issued id ↔ i.InRange id := by
  rw [hashed.issued_iff]
  exact ⟨fun bounds => bounds.1, fun inRange => ⟨inRange, Nat.lt_of_lt_of_le inRange fits⟩⟩

/-- Interning the carrier at a position below `capacity`. -/
theorem intern_of_get (hashed : i.HashConsed) (fits : i.Fits) {id : TypeId} {ty : Ty}
    (found : i.get id = some ty) : i.intern ty = (id, i) := by
  have inRange := get_eq_some_lt found
  have looked : i.dedup.lookup ty = some id := by
    refine (hashed.lookup_iff ty id).mpr ⟨id.index, found, ?_⟩
    rw [Nat.mod_eq_of_lt (Nat.lt_of_lt_of_le inRange fits)]
  rw [intern, looked]

theorem fits_intern (hashed : i.HashConsed) (room : i.arena.length < capacity) (ty : Ty) :
    (i.intern ty).2.Fits := by
  rcases hashed.intern_cases ty with ⟨k, -, same⟩ | ⟨-, -, grown⟩
  · rw [same]
    exact Nat.le_of_lt room
  · rw [grown]
    simpa [Fits] using Nat.succ_le_of_lt room

/-- Past `capacity` a new carrier shares its handle with another one. -/
theorem not_get_intern (hashed : i.HashConsed) (full : capacity ≤ i.arena.length) {ty : Ty}
    (fresh : ty ∉ i.arena) : (i.intern ty).2.get (i.intern ty).1 ≠ some ty := by
  rcases hashed.intern_cases ty with ⟨k, found, -⟩ | ⟨-, handle, grown⟩
  · exact absurd (mem_arena_iff.mpr ⟨k, found⟩) fresh
  · have positive : 0 < capacity := by decide
    have taken : i.arena.length % capacity < i.arena.length :=
      Nat.lt_of_lt_of_le (Nat.mod_lt _ positive) full
    rw [handle, grown]
    simp only [get, List.getElem?_append_left taken]
    intro found
    exact fresh (mem_arena_iff.mpr ⟨_, found⟩)

end HashConsed

theorem intern_fst_of_mem (hashed : i.HashConsed) {ty : Ty} (run : Run i j)
    (later : j.HashConsed) (mem : ty ∈ i.arena) : (j.intern ty).1 = (i.intern ty).1 := by
  obtain ⟨k, found⟩ := mem_arena_iff.mp mem
  have foundLater : j.get ⟨k⟩ = some ty := run.get_eq found
  have iLooked := (hashed.lookup_iff ty ⟨k % capacity⟩).mpr ⟨k, found, rfl⟩
  have jLooked := (later.lookup_iff ty ⟨k % capacity⟩).mpr ⟨k, foundLater, rfl⟩
  rw [intern, intern, iLooked, jLooked]

/-- In every run the interner is faithful exactly while handles are left. -/
theorem faithful_iff (reachable : i.Reachable) :
    i.Faithful ↔ i.arena.length < capacity := by
  have coherent := reachable.coherent
  have hashed := coherent.toHashConsed
  constructor
  · intro faithful
    obtain ⟨ty, leaf, fresh⟩ := i.exists_fresh
    apply Nat.lt_of_not_le
    intro full
    exact hashed.not_get_intern full fresh (faithful.get_intern ty (by simp [leaf]))
  · intro room
    have issued {id : TypeId} : i.Issued id ↔ i.InRange id :=
      hashed.issued_iff_inRange (Nat.le_of_lt room)
    constructor
    · intro ty _
      exact hashed.get_intern ty (hashed.fits_intern room ty)
    · intro id idIssued
      obtain ⟨ty, found⟩ := exists_get (issued.mp idIssued)
      exact ⟨ty, found, hashed.intern_of_get (Nat.le_of_lt room) found⟩
    · intro j run
      constructor
      · intro ty mem
        exact intern_fst_of_mem hashed run (run.coherent coherent).toHashConsed mem
      · intro id idIssued
        obtain ⟨ty, found⟩ := exists_get (issued.mp idIssued)
        rw [run.get_eq found, found]
    · intro id ty found child childMem
      exact (hashed.child_inRange found childMem).1
    · intro a b aIssued bIssued fuel enough
      exact (hashed.cmp_eq (issued.mp aIssued) (issued.mp bIssued) enough).1
    · exact hashed.order_linear.mono fun _ idIssued => issued.mp idIssued
    · intro j jReachable a b a' b' aIssued bIssued aIssued' bIssued' sameA sameB
      have jHashed := jReachable.coherent.toHashConsed
      exact hashed.order_congr jHashed (issued.mp aIssued) (issued.mp bIssued)
        (jHashed.issued_lt aIssued') (jHashed.issued_lt bIssued') sameA sameB

/-! ## A full arena -/

/-- The run that interns the integer literals `0, 1, …`. -/
def filled : Nat → Interner
  | 0 => new
  | n + 1 => ((filled n).intern (.constant (.int (Int64.ofNat n)))).2

theorem int_notMem_filled {m n : Nat} (below : m ≤ n) (bound : n < 2 ^ 63) :
    .constant (.int (Int64.ofNat n)) ∉
      atomics ++ (List.range m).map fun k => (.constant (.int (Int64.ofNat k)) : Ty) := by
  simp only [atomics, List.mem_append, List.mem_map, List.mem_range, not_or, not_exists]
  constructor
  · simp
  · rintro k ⟨kBelow, same⟩
    have values := congrArg Int64.toInt (Scalar.int.inj (Carrier.constant.inj same))
    rw [Int64.toInt_ofNat_of_lt (by omega), Int64.toInt_ofNat_of_lt bound] at values
    omega

theorem filled_spec (n : Nat) (bound : n ≤ 2 ^ 63) :
    (filled n).Reachable ∧ (filled n).arena =
      atomics ++ (List.range n).map fun k => (.constant (.int (Int64.ofNat k)) : Ty) := by
  induction n with
  | zero => exact ⟨Relation.ReflTransGen.refl, rfl⟩
  | succ n ih =>
      obtain ⟨reachable, arena⟩ := ih (by omega)
      refine ⟨reachable.tail ⟨_, by simp [Carrier.children], rfl⟩, ?_⟩
      have fresh := int_notMem_filled (Nat.le_refl n) bound
      rcases reachable.coherent.intern_cases (.constant (.int (Int64.ofNat n))) with
        ⟨k, found, -⟩ | ⟨-, -, grown⟩
      · rw [arena] at found
        exact absurd (List.mem_of_getElem? found) fresh
      · rw [filled, grown, arena, List.range_succ, List.map_append, List.append_assoc]
        rfl

theorem length_filled {n : Nat} (bound : n ≤ 2 ^ 63) : (filled n).arena.length = 5 + n := by
  rw [(filled_spec n bound).2]
  simp only [atomics, List.length_append, List.length_map, List.length_range]
  rfl

/-- With three literals interned there is room. -/
theorem faithful_filled_three : (filled 3).Faithful := by
  apply (faithful_iff (filled_spec 3 (by decide)).1).mpr
  rw [length_filled (by decide)]
  decide

/-- After `2 ^ 32` carriers a run leaves the promises of the interner. -/
theorem not_faithful_filled :
    (filled (2 ^ 32 - 5)).Reachable ∧ ¬ (filled (2 ^ 32 - 5)).Faithful := by
  have reachable := (filled_spec (2 ^ 32 - 5) (by decide)).1
  refine ⟨reachable, fun faithful => ?_⟩
  have room := (faithful_iff reachable).mp faithful
  rw [length_filled (by decide)] at room
  exact absurd room (by decide)

end Interner

end Rigor.Types
