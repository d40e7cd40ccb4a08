import Mathlib.Data.List.MinMax
import Mathlib.Data.List.Sort
import Mathlib.Data.List.Nodup
import Mathlib.Data.List.Pairwise
import Mathlib.Tactic.Tauto
import Rigor.Library.Grouping

/-!
# The cross-file cache

The last project index of a few documents.  Every store and every hit stamps its entry
with a fresh clock value; a store that exceeds the bound drops the entries with the
oldest stamps.  In terms of recency: the cache is a list with the last used entry first,
and a store moves its entry to the front and keeps the first eight.
-/

namespace Rigor.Cli.Lsp

universe u v

/-- The bound on the entries. -/
def crossfileCacheCap : Nat :=
  8

structure CachedIndex (Index : Type v) where
  index : Index
  generation : Nat
  used : Nat

section Entries

variable {Uri : Type u} {Index : Type v} [DecidableEq Uri]

abbrev Entry (Uri : Type u) (Index : Type v) :=
  Uri × CachedIndex Index

/-- `HashMap::get`. -/
def getEntry (uri : Uri) (entries : List (Entry Uri Index)) : Option (CachedIndex Index) :=
  entries.lookup uri

/-- `HashMap::remove`. -/
def removeEntry (uri : Uri) (entries : List (Entry Uri Index)) : List (Entry Uri Index) :=
  entries.filter fun entry => entry.1 ≠ uri

/-- `HashMap::insert`. -/
def insertEntry (uri : Uri) (cached : CachedIndex Index) (entries : List (Entry Uri Index)) :
    List (Entry Uri Index) :=
  (uri, cached) :: removeEntry uri entries

theorem mem_of_getEntry {uri : Uri} {entries : List (Entry Uri Index)} {cached : CachedIndex Index}
    (found : getEntry uri entries = some cached) : (uri, cached) ∈ entries :=
  Library.Grouping.mem_of_lookup found

theorem mem_removeEntry {uri : Uri} {entries : List (Entry Uri Index)} {entry : Entry Uri Index} :
    entry ∈ removeEntry uri entries ↔ entry ∈ entries ∧ entry.1 ≠ uri := by
  simp [removeEntry]

theorem removeEntry_sublist (uri : Uri) (entries : List (Entry Uri Index)) :
    (removeEntry uri entries).Sublist entries :=
  List.filter_sublist

/-- Removes the entry with the oldest stamp while there are too many. -/
def shrink (entries : List (Entry Uri Index)) : List (Entry Uri Index) :=
  if crossfileCacheCap < entries.length then
    match _found : entries.argmin fun entry => entry.2.used with
    | some victim => shrink (removeEntry victim.1 entries)
    | none => entries
  else entries
termination_by entries.length
decreasing_by
  have member := List.argmin_mem _found
  apply List.length_filter_lt_length_iff_exists.mpr
  exact ⟨victim, member, by simp⟩

theorem nodup_removeEntry {uri : Uri} {entries : List (Entry Uri Index)}
    (unique : (entries.map Prod.fst).Nodup) : ((removeEntry uri entries).map Prod.fst).Nodup :=
  unique.sublist ((removeEntry_sublist uri entries).map _)

theorem nodup_insertEntry (uri : Uri) {entries : List (Entry Uri Index)}
    (unique : (entries.map Prod.fst).Nodup) (cached : CachedIndex Index) :
    ((insertEntry uri cached entries).map Prod.fst).Nodup := by
  rw [insertEntry, List.map_cons, List.nodup_cons]
  refine ⟨?_, nodup_removeEntry unique⟩
  intro mem
  obtain ⟨entry, kept, same⟩ := List.mem_map.mp mem
  exact (mem_removeEntry.mp kept).2 same

theorem mem_of_mem_shrink {entries : List (Entry Uri Index)} {entry : Entry Uri Index}
    (mem : entry ∈ shrink entries) : entry ∈ entries := by
  fun_induction shrink entries with
  | case1 entries tooMany victim found ih => exact (mem_removeEntry.mp (ih mem)).1
  | case2 => exact mem
  | case3 => exact mem

/-! ## Recency -/

/-- The entries with the last used first. -/
structure Recency (entries order : List (Entry Uri Index)) : Prop where
  perm : order.Perm entries
  sorted : order.Pairwise fun a b => b.2.used < a.2.used

namespace Recency

variable {entries order : List (Entry Uri Index)}

omit [DecidableEq Uri] in
theorem nil : Recency ([] : List (Entry Uri Index)) [] :=
  ⟨.refl _, .nil⟩

theorem remove (recency : Recency entries order) (uri : Uri) :
    Recency (removeEntry uri entries) (removeEntry uri order) :=
  ⟨recency.perm.filter _, recency.sorted.filter _⟩

theorem insert (recency : Recency entries order) (uri : Uri) {cached : CachedIndex Index}
    (newest : ∀ entry ∈ entries, entry.2.used < cached.used) :
    Recency (insertEntry uri cached entries) ((uri, cached) :: removeEntry uri order) where
  perm := (recency.perm.filter _).cons _
  sorted := by
    constructor
    · intro entry mem
      exact newest entry (recency.perm.mem_iff.mp (mem_removeEntry.mp mem).1)
    · exact recency.sorted.filter _

/-- The oldest entry is the last in order of use, so removing it drops the end of the order. -/
theorem remove_oldest {victim : Entry Uri Index} (recency : Recency entries order)
    (unique : (entries.map Prod.fst).Nodup)
    (oldest : victim ∈ entries.argmin fun entry => entry.2.used) :
    Recency (removeEntry victim.1 entries) order.dropLast := by
  have member : victim ∈ order := recency.perm.mem_iff.mpr (List.argmin_mem oldest)
  obtain ⟨front, last, rfl⟩ : ∃ front last, order = front ++ [last] := by
    rcases List.eq_nil_or_concat order with rfl | ⟨front, last, rfl⟩
    · simp at member
    · exact ⟨front, last, List.concat_eq_append⟩
  have sorted := List.pairwise_append.mp recency.sorted
  have isLast : victim = last := by
    rcases List.mem_append.mp member with earlier | here
    · have older := sorted.2.2 victim earlier last (List.mem_singleton_self _)
      have inside : last ∈ entries := recency.perm.mem_iff.mp (by simp)
      have least : victim.2.used ≤ last.2.used :=
        List.le_of_mem_argmin (f := fun entry : Entry Uri Index => entry.2.used) inside oldest
      exact absurd older (Nat.not_lt.mpr least)
    · exact List.mem_singleton.mp here
  subst isLast
  have keys := (recency.perm.map Prod.fst).nodup_iff.mpr unique
  rw [List.map_append, List.nodup_append] at keys
  have kept : removeEntry victim.1 (front ++ [victim]) = front := by
    rw [removeEntry, List.filter_append, List.filter_eq_self.mpr, List.filter_eq_nil_iff.mpr,
      List.append_nil]
    · simp
    · intro entry mem
      rw [decide_eq_true_eq]
      exact keys.2.2 _ (List.mem_map_of_mem mem) _ (by simp)
  rw [List.dropLast_concat]
  exact ⟨kept ▸ recency.perm.filter _, sorted.1⟩

/-- Shrinking keeps the last used entries. -/
theorem shrink (recency : Recency entries order) (unique : (entries.map Prod.fst).Nodup) :
    Recency (shrink entries) (order.take crossfileCacheCap) := by
  fun_induction Lsp.shrink entries generalizing order with
  | case1 entries tooMany victim found ih =>
      have taken := ih (recency.remove_oldest unique found) (nodup_removeEntry unique)
      rw [List.dropLast_eq_take, List.take_take] at taken
      have bound : min crossfileCacheCap (order.length - 1) = crossfileCacheCap := by
        rw [recency.perm.length_eq]
        exact Nat.min_eq_left (Nat.le_sub_one_of_lt tooMany)
      rwa [bound] at taken
  | case2 entries tooMany found =>
      rw [List.argmin_eq_none] at found
      subst found
      simp at tooMany
  | case3 entries fits =>
      rw [List.take_of_length_le]
      · exact recency
      · rw [recency.perm.length_eq]
        exact Nat.not_lt.mp fits

end Recency

end Entries

/-! ## The cache -/

/-- The cache: one entry for a document at most, no stamp in the future, no two equal
stamps, and no more entries than the bound. -/
structure CrossFileCache (Uri : Type u) (Index : Type v) [DecidableEq Uri] where
  entries : List (Entry Uri Index)
  clock : Nat
  unique : (entries.map Prod.fst).Nodup
  stamped : ∀ entry ∈ entries, entry.2.used ≤ clock
  ordered : ∃ order, Recency entries order
  bounded : entries.length ≤ crossfileCacheCap

namespace CrossFileCache

variable {Uri : Type u} {Index : Type v} [DecidableEq Uri]

def new : CrossFileCache Uri Index where
  entries := []
  clock := 0
  unique := .nil
  stamped := by simp
  ordered := ⟨[], .nil⟩
  bounded := Nat.zero_le _

theorem newest (cache : CrossFileCache Uri Index) (index : Index) (generation : Nat) :
    ∀ entry ∈ cache.entries,
      entry.2.used < (CachedIndex.mk index generation (cache.clock + 1)).used :=
  fun entry mem => Nat.lt_succ_of_le (cache.stamped entry mem)

def store (cache : CrossFileCache Uri Index) (uri : Uri) (index : Index) (generation : Nat) :
    CrossFileCache Uri Index where
  entries := shrink (insertEntry uri ⟨index, generation, cache.clock + 1⟩ cache.entries)
  clock := cache.clock + 1
  unique := by
    obtain ⟨order, recency⟩ := cache.ordered
    have unique := nodup_insertEntry uri cache.unique ⟨index, generation, cache.clock + 1⟩
    have kept := (recency.insert uri (cache.newest index generation)).shrink unique
    have whole := (recency.insert uri (cache.newest index generation)).perm
    apply (kept.perm.map Prod.fst).nodup_iff.mp
    exact ((whole.map Prod.fst).nodup_iff.mpr unique).sublist ((List.take_sublist _ _).map _)
  stamped := by
    intro entry mem
    rcases List.mem_cons.mp (mem_of_mem_shrink mem) with rfl | old
    · exact Nat.le_refl _
    · exact Nat.le_succ_of_le (cache.stamped entry (mem_removeEntry.mp old).1)
  ordered := by
    obtain ⟨order, recency⟩ := cache.ordered
    exact ⟨_, (recency.insert uri (cache.newest index generation)).shrink
      (nodup_insertEntry uri cache.unique _)⟩
  bounded := by
    obtain ⟨order, recency⟩ := cache.ordered
    have kept := (recency.insert uri (cache.newest index generation)).shrink
      (nodup_insertEntry uri cache.unique _)
    rw [← kept.perm.length_eq]
    exact List.length_take_le _ _

/-- A lookup advances the clock. -/
def tick (cache : CrossFileCache Uri Index) : CrossFileCache Uri Index :=
  { cache with
    clock := cache.clock + 1
    stamped := fun entry mem => Nat.le_succ_of_le (cache.stamped entry mem) }

/-- A hit stamps its entry. -/
def touch (cache : CrossFileCache Uri Index) (uri : Uri) (cached : CachedIndex Index)
    (found : getEntry uri cache.entries = some cached) : CrossFileCache Uri Index where
  entries := insertEntry uri { cached with used := cache.clock + 1 } cache.entries
  clock := cache.clock + 1
  unique := nodup_insertEntry uri cache.unique _
  stamped := by
    intro entry mem
    rcases List.mem_cons.mp mem with rfl | old
    · exact Nat.le_refl _
    · exact Nat.le_succ_of_le (cache.stamped entry (mem_removeEntry.mp old).1)
  ordered := by
    obtain ⟨order, recency⟩ := cache.ordered
    exact ⟨_, recency.insert uri (cache.newest cached.index cached.generation)⟩
  bounded := by
    have fewer : (removeEntry uri cache.entries).length < cache.entries.length := by
      apply List.length_filter_lt_length_iff_exists.mpr
      exact ⟨_, mem_of_getEntry found, by simp⟩
    exact Nat.le_trans (Nat.succ_le_of_lt fewer) cache.bounded

def get (cache : CrossFileCache Uri Index) (uri : Uri) (generation : Nat) :
    Option Index × CrossFileCache Uri Index :=
  match found : getEntry uri cache.entries with
  | none => (none, cache.tick)
  | some cached =>
      if cached.generation ≠ generation then (none, cache.tick)
      else (some cached.index, cache.touch uri cached found)

def evict (cache : CrossFileCache Uri Index) (uri : Uri) : CrossFileCache Uri Index where
  entries := removeEntry uri cache.entries
  clock := cache.clock
  unique := nodup_removeEntry cache.unique
  stamped entry mem := cache.stamped entry (mem_removeEntry.mp mem).1
  ordered := by
    obtain ⟨order, recency⟩ := cache.ordered
    exact ⟨_, recency.remove uri⟩
  bounded := Nat.le_trans (removeEntry_sublist uri cache.entries).length_le cache.bounded

def clear (cache : CrossFileCache Uri Index) : CrossFileCache Uri Index where
  entries := []
  clock := cache.clock
  unique := .nil
  stamped := by simp
  ordered := ⟨[], .nil⟩
  bounded := Nat.zero_le _

variable {cache : CrossFileCache Uri Index} {uri : Uri} {generation : Nat}

theorem mem_store {index : Index} {entry : Entry Uri Index}
    (mem : entry ∈ (cache.store uri index generation).entries) :
    entry = (uri, ⟨index, generation, cache.clock + 1⟩) ∨ entry ∈ cache.entries := by
  rcases List.mem_cons.mp (mem_of_mem_shrink mem) with same | old
  · exact .inl same
  · exact .inr (mem_removeEntry.mp old).1

/-- A store keeps its entry and the last used of the others, up to the bound. -/
theorem store_recency {order : List (Entry Uri Index)} (recency : Recency cache.entries order)
    (uri : Uri) (index : Index) (generation : Nat) :
    Recency (cache.store uri index generation).entries
      (((uri, ⟨index, generation, cache.clock + 1⟩) :: removeEntry uri order).take
        crossfileCacheCap) :=
  (recency.insert uri (cache.newest index generation)).shrink (nodup_insertEntry uri cache.unique _)

/-- A hit answers the entry of the document under the generation, and puts it first. -/
theorem get_of_some {index : Index} (hit : (cache.get uri generation).1 = some index) :
    ∃ cached, (uri, cached) ∈ cache.entries ∧ cached.index = index ∧
      cached.generation = generation ∧ ∀ order, Recency cache.entries order →
        Recency (cache.get uri generation).2.entries
          ((uri, { cached with used := cache.clock + 1 }) :: removeEntry uri order) := by
  revert hit
  fun_cases get cache uri generation with
  | case1 found => simp
  | case2 cached found stale => simp
  | case3 cached found current =>
      intro hit
      refine ⟨cached, mem_of_getEntry found, Option.some.inj hit, not_not.mp current, ?_⟩
      intro order recency
      exact recency.insert uri (cache.newest cached.index cached.generation)

/-- A lookup keeps the entries up to their stamps. -/
theorem mem_get {entry : Entry Uri Index} (mem : entry ∈ (cache.get uri generation).2.entries) :
    ∃ old ∈ cache.entries, old.1 = entry.1 ∧ old.2.index = entry.2.index ∧
      old.2.generation = entry.2.generation := by
  revert mem
  fun_cases get cache uri generation with
  | case1 found => exact fun mem => ⟨entry, mem, rfl, rfl, rfl⟩
  | case2 cached found stale => exact fun mem => ⟨entry, mem, rfl, rfl, rfl⟩
  | case3 cached found current =>
      intro mem
      rcases List.mem_cons.mp mem with rfl | old
      · exact ⟨_, mem_of_getEntry found, rfl, rfl, rfl⟩
      · exact ⟨entry, (mem_removeEntry.mp old).1, rfl, rfl, rfl⟩

end CrossFileCache

end Rigor.Cli.Lsp
