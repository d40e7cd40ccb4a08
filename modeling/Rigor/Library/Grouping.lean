import Mathlib.Data.List.Induction
import Mathlib.Data.List.Nodup

/-!
# Grouping a stream by a key

Two accumulations over a stream of keys: an association list of occurrence
counts, and the positions at which each key occurs.  A loop that fills bins in
first-appearance order computes `List.eraseDups` of the keys, each with its
positions; the lemmas here say how both parts grow when one key is appended.
The last sections are the tables in which the first value written for a key stays,
and those in which each write changes the value.
-/

namespace Rigor.Library.Grouping

universe u v w

/-- A test that holds wherever another does, and somewhere more, counts more. -/
theorem countP_lt_countP {α : Type u} {items : List α} {narrow wide : α → Bool} {extra : α}
    (included : ∀ item ∈ items, narrow item = true → wide item = true)
    (member : extra ∈ items) (wideExtra : wide extra = true)
    (notNarrow : ¬narrow extra = true) : items.countP narrow < items.countP wide := by
  obtain ⟨front, back, rfl⟩ := List.append_of_mem member
  have frontLe : front.countP narrow ≤ front.countP wide :=
    List.countP_mono_left fun item inFront => included item (List.mem_append_left _ inFront)
  have backLe : back.countP narrow ≤ back.countP wide :=
    List.countP_mono_left fun item inBack =>
      included item (List.mem_append_right _ (List.mem_cons_of_mem _ inBack))
  simp only [List.countP_append, List.countP_cons, wideExtra, notNarrow, if_true]
  simp only [Bool.false_eq_true, if_false]
  omega

theorem mem_of_lookup {κ : Type u} {β : Type v} [BEq κ] [LawfulBEq κ] {table : List (κ × β)}
    {key : κ} {value : β} (found : table.lookup key = some value) : (key, value) ∈ table := by
  obtain ⟨front, back, split, _⟩ := List.lookup_eq_some_iff.mp found
  rw [split]
  exact List.mem_append_right _ List.mem_cons_self

/-- Looking up in a table with mapped values. -/
theorem lookup_mapValues {κ : Type u} {β : Type v} {γ : Type w} [BEq κ] (f : β → γ) (table : List (κ × β))
    (key : κ) : (table.map fun item => (item.1, f item.2)).lookup key = (table.lookup key).map f := by
  induction table with
  | nil => rfl
  | cons item table ih =>
      rw [List.map_cons, List.lookup_cons, List.lookup_cons, ih]
      cases key == item.1 <;> rfl

section Tally

variable {κ : Type u} [DecidableEq κ]

/-- Record one more occurrence of `key`. -/
def bump (key : κ) : List (κ × Nat) → List (κ × Nat)
  | [] => [(key, 1)]
  | (other, count) :: rest =>
      if other = key then (other, count + 1) :: rest else (other, count) :: bump key rest

theorem lookup_bump (key sought : κ) (counts : List (κ × Nat)) :
    (bump key counts).lookup sought =
      if sought = key then some ((counts.lookup sought).getD 0 + 1)
      else counts.lookup sought := by
  induction counts with
  | nil =>
      by_cases equal : sought = key
      · simp [bump, equal]
      · simp [bump, List.lookup_cons, beq_eq_false_iff_ne.mpr equal, equal]
  | cons head rest ih =>
      rcases head with ⟨other, count⟩
      by_cases otherEq : other = key
      · subst otherEq
        by_cases equal : sought = other
        · simp [bump, equal]
        · simp [bump, List.lookup_cons, beq_eq_false_iff_ne.mpr equal, equal]
      · by_cases here : sought = other
        · subst here
          simp [bump, otherEq]
        · have missed : (sought == other) = false := by simpa using here
          simp only [bump, otherEq, if_false, List.lookup_cons, missed, ih]

/-- Occurrence counts of every key of a stream. -/
def tally (keys : List κ) : List (κ × Nat) :=
  keys.foldl (fun counts key => bump key counts) []

theorem tally_append_singleton (keys : List κ) (key : κ) :
    tally (keys ++ [key]) = bump key (tally keys) := by
  simp [tally]

/-- A tally holds exactly the keys that occurred, each with its count. -/
theorem lookup_tally (keys : List κ) (sought : κ) :
    (tally keys).lookup sought =
      if sought ∈ keys then some (keys.count sought) else none := by
  induction keys using List.reverseRecOn with
  | nil => simp [tally]
  | append_singleton keys key ih =>
      rw [tally_append_singleton, lookup_bump, ih]
      by_cases equal : sought = key
      · subst equal
        by_cases member : sought ∈ keys
        · simp [member]
        · simp [member, List.count_eq_zero_of_not_mem member]
      · simp [equal, Ne.symm equal]

theorem getD_lookup_tally (keys : List κ) (sought : κ) :
    ((tally keys).lookup sought).getD 0 = keys.count sought := by
  rw [lookup_tally]
  by_cases member : sought ∈ keys
  · simp [member]
  · simp [member, List.count_eq_zero_of_not_mem member]

end Tally

theorem nodup_eraseDups {κ : Type u} [BEq κ] [LawfulBEq κ] (keys : List κ) : keys.eraseDups.Nodup := by
  induction keys using List.reverseRecOn with
  | nil => simp
  | append_singleton keys key ih =>
      rw [List.eraseDups_append]
      by_cases member : key ∈ keys
      · simpa [List.removeAll, member] using ih
      · simpa [List.removeAll, member, List.eraseDups_cons, List.nodup_append] using
          ⟨ih, fun other otherMem => by
            rintro rfl
            exact member otherMem⟩

section FirstAppearance

variable {κ : Type u} [DecidableEq κ]

theorem eraseDups_append_singleton (keys : List κ) (key : κ) :
    (keys ++ [key]).eraseDups =
      if key ∈ keys then keys.eraseDups else keys.eraseDups ++ [key] := by
  rw [List.eraseDups_append]
  by_cases member : key ∈ keys <;> simp [List.removeAll, member, List.eraseDups_cons]

/-- Appending a fresh key gives it the next slot and moves no other. -/
theorem idxOf?_append_fresh {keys : List κ} {key : κ} (fresh : key ∉ keys) (sought : κ) :
    (keys ++ [key]).idxOf? sought =
      if sought = key then some keys.length else keys.idxOf? sought := by
  induction keys with
  | nil =>
      by_cases equal : sought = key
      · simp [List.idxOf?_cons, equal]
      · simp [List.idxOf?_cons, equal, Ne.symm equal]
  | cons head rest ih =>
      rw [List.mem_cons, not_or] at fresh
      rw [List.cons_append, List.idxOf?_cons, List.idxOf?_cons, ih fresh.2]
      by_cases here : head = sought
      · subst here
        simp [Ne.symm fresh.1]
      · by_cases equal : sought = key
        · simpa [here, equal] using Ne.symm fresh.1
        · simp [here, equal]

/-- Changing the slot of one key changes that key's rendering only. -/
theorem modify_map_of_idxOf? {β : Type v} {keys : List κ} (distinct : keys.Nodup) {key : κ}
    {slot : Nat} (found : keys.idxOf? key = some slot) (render : κ → β) (change : β → β) :
    (keys.map render).modify slot change =
      keys.map fun other => if other = key then change (render other) else render other := by
  induction keys generalizing slot with
  | nil => simp at found
  | cons head rest ih =>
      rw [List.nodup_cons] at distinct
      rw [List.idxOf?_cons] at found
      by_cases here : head = key
      · subst here
        have slot_eq : slot = 0 := by simpa using found.symm
        subst slot_eq
        simp only [List.map_cons, List.modify_zero_cons, if_true, List.cons.injEq, true_and]
        apply List.map_congr_left
        intro other member
        rw [if_neg]
        rintro rfl
        exact distinct.1 member
      · obtain ⟨earlier, foundEarlier, rfl⟩ : ∃ earlier, rest.idxOf? key = some earlier ∧
            earlier + 1 = slot := by
          simpa [here] using found
        simp [here, ih distinct.2 foundEarlier]

theorem modify_append_length {β : Type v} (earlier : List β) (last : β) (change : β → β) :
    (earlier ++ [last]).modify earlier.length change = earlier ++ [change last] := by
  induction earlier with
  | nil => rfl
  | cons head rest ih => simp [ih]

omit [DecidableEq κ] in
theorem nodup_map_some_append_none {keys : List κ} (distinct : keys.Nodup) :
    (keys.map some ++ [none]).Nodup := by
  rw [List.nodup_append]
  refine ⟨distinct.map (fun _ _ => Option.some.inj), List.nodup_singleton _, ?_⟩
  intro key keyMem other otherMem
  obtain ⟨key, -, rfl⟩ := List.mem_map.mp keyMem
  simp [List.mem_singleton.mp otherMem]

end FirstAppearance

/-- Members of an increasing list stand in increasing order. -/
theorem pair_sublist_of_increasing {items : List Nat} (increasing : items.Pairwise (· < ·))
    {i j : Nat} (iMem : i ∈ items) (jMem : j ∈ items) (before : i < j) :
    [i, j].Sublist items := by
  obtain ⟨front, back, rfl⟩ := List.append_of_mem iMem
  rw [List.pairwise_append] at increasing
  rcases List.mem_append.mp jMem with inFront | inRest
  · exact absurd (increasing.2.2 j inFront i List.mem_cons_self) (Nat.lt_asymm before)
  · rcases List.mem_cons.mp inRest with rfl | inBack
    · exact absurd before (Nat.lt_irrefl _)
    · exact ((List.singleton_sublist.mpr inBack).cons_cons i).trans
        (List.sublist_append_right front _)

section Positions

variable {β : Type v} [DecidableEq β]

/-- The positions of a stream that hold `value`, in stream order. -/
def positions (stream : List β) (value : β) : List Nat :=
  (List.range stream.length).filter fun i => decide (stream[i]? = some value)

theorem mem_positions {stream : List β} {value : β} {i : Nat} :
    i ∈ positions stream value ↔ stream[i]? = some value := by
  simp only [positions, List.mem_filter, List.mem_range, decide_eq_true_eq,
    and_iff_right_iff_imp]
  intro found
  exact (List.getElem?_eq_some_iff.mp found).1

@[simp]
theorem positions_nil (value : β) : positions [] value = [] :=
  rfl

theorem positions_append_singleton (stream : List β) (last value : β) :
    positions (stream ++ [last]) value =
      positions stream value ++ if last = value then [stream.length] else [] := by
  have earlier : ∀ i ∈ List.range stream.length,
      decide ((stream ++ [last])[i]? = some value) = decide (stream[i]? = some value) := by
    intro i below
    rw [List.getElem?_append_left (List.mem_range.mp below)]
  simp only [positions, List.length_append, List.length_singleton, List.range_succ,
    List.filter_append, List.filter_congr earlier]
  by_cases equal : last = value <;> simp [equal]

theorem sorted_positions (stream : List β) (value : β) :
    (positions stream value).Pairwise (· < ·) :=
  List.pairwise_lt_range.sublist List.filter_sublist

theorem nodup_positions (stream : List β) (value : β) : (positions stream value).Nodup :=
  (sorted_positions stream value).imp Nat.ne_of_lt

theorem length_positions (stream : List β) (value : β) :
    (positions stream value).length = stream.countP fun other => decide (other = value) := by
  induction stream using List.reverseRecOn with
  | nil => simp
  | append_singleton stream last ih =>
      rw [positions_append_singleton, List.length_append, ih, List.countP_append]
      by_cases equal : last = value <;> simp [equal]

theorem disjoint_positions (stream : List β) {first second : β} (distinct : first ≠ second) :
    (positions stream first).Disjoint (positions stream second) := by
  intro i inFirst inSecond
  rw [mem_positions] at inFirst inSecond
  exact distinct (Option.some.inj (inFirst.symm.trans inSecond))

theorem nodup_flatMap_positions (stream : List β) {values : List β} (distinct : values.Nodup) :
    (values.flatMap (positions stream)).Nodup := by
  rw [List.nodup_flatMap]
  refine ⟨fun value _ => nodup_positions stream value, ?_⟩
  apply distinct.imp
  intro first second ne
  exact disjoint_positions stream ne

/-- The positions of a complete list of values partition the stream. -/
theorem flatMap_positions_perm {stream values : List β} (distinct : values.Nodup)
    (complete : ∀ value ∈ stream, value ∈ values) :
    (values.flatMap (positions stream)).Perm (List.range stream.length) := by
  rw [List.perm_ext_iff_of_nodup (nodup_flatMap_positions stream distinct) List.nodup_range]
  intro i
  rw [List.mem_flatMap, List.mem_range]
  constructor
  · rintro ⟨value, -, at_⟩
    exact (List.getElem?_eq_some_iff.mp (mem_positions.mp at_)).1
  · intro inRange
    exact ⟨stream[i], complete _ (List.getElem_mem inRange),
      mem_positions.mpr (List.getElem?_eq_getElem inRange)⟩

end Positions

section FirstWrite

variable {κ : Type u} {β : Type v} [BEq κ] [LawfulBEq κ]

/-- Insertion that keeps the value a key already has. -/
def insertNew (key : κ) (value : β) (table : List (κ × β)) : List (κ × β) :=
  if (table.lookup key).isSome then table else table ++ [(key, value)]

theorem lookup_insertNew (key sought : κ) (value : β) (table : List (κ × β)) :
    (insertNew key value table).lookup sought =
      (table.lookup sought).or (if sought == key then some value else none) := by
  by_cases present : (table.lookup key).isSome
  · rw [insertNew, if_pos present]
    by_cases same : sought = key
    · rw [same, Option.or_of_isSome present]
    · rw [beq_eq_false_iff_ne.mpr same, if_neg Bool.false_ne_true, Option.or_none]
  · rw [insertNew, if_neg present, List.lookup_append]
    by_cases same : sought = key
    · simp [same]
    · simp [List.lookup_cons, beq_eq_false_iff_ne.mpr same]

theorem lookup_insertNew_of_some {key held : κ} {old : β} {table : List (κ × β)} (value : β)
    (found : table.lookup held = some old) : (insertNew key value table).lookup held = some old := by
  rw [lookup_insertNew, found, Option.some_or]

/-- Inserting the entries one after the other keeps the first value of each key. -/
theorem lookup_foldl_insertNew (entries table : List (κ × β)) (sought : κ) :
    (entries.foldl (fun table entry => insertNew entry.1 entry.2 table) table).lookup sought =
      (table.lookup sought).or (entries.lookup sought) := by
  induction entries generalizing table with
  | nil => simp
  | cons entry rest ih =>
      rcases entry with ⟨key, value⟩
      rw [List.foldl_cons, ih, lookup_insertNew, Option.or_assoc]
      by_cases same : sought = key
      · simp [same]
      · simp [List.lookup_cons, beq_eq_false_iff_ne.mpr same]

theorem nodup_insertNew {key : κ} {value : β} {table : List (κ × β)}
    (nodup : (table.map Prod.fst).Nodup) : ((insertNew key value table).map Prod.fst).Nodup := by
  unfold insertNew
  split
  · exact nodup
  next absent =>
      have fresh : key ∉ table.map Prod.fst := by
        rintro member
        rcases List.mem_map.mp member with ⟨entry, inTable, rfl⟩
        rw [Option.not_isSome_iff_eq_none, List.lookup_eq_none_iff] at absent
        simpa using absent entry inTable
      rw [List.map_append, List.nodup_append]
      constructor
      · exact nodup
      · constructor
        · simp
        · intro held inTable added inSingle same
          rw [List.map_singleton, List.mem_singleton] at inSingle
          rw [same, inSingle] at inTable
          exact fresh inTable

theorem nodup_foldl_insertNew (entries : List (κ × β)) {table : List (κ × β)}
    (nodup : (table.map Prod.fst).Nodup) :
    ((entries.foldl (fun table entry => insertNew entry.1 entry.2 table) table).map
      Prod.fst).Nodup := by
  induction entries generalizing table with
  | nil => exact nodup
  | cons entry rest ih => exact ih (nodup_insertNew nodup)

/-- With one entry a key, the entries of a table are its lookups. -/
theorem mem_iff_lookup {table : List (κ × β)} (nodup : (table.map Prod.fst).Nodup) {key : κ}
    {value : β} : (key, value) ∈ table ↔ table.lookup key = some value := by
  induction table with
  | nil => simp
  | cons entry rest ih =>
      rcases entry with ⟨held, stored⟩
      rw [List.map_cons, List.nodup_cons] at nodup
      rw [List.mem_cons, ih nodup.2, List.lookup_cons]
      by_cases same : key = held
      · subst same
        have absent : rest.lookup key = none := by
          rw [List.lookup_eq_none_iff]
          intro other inRest
          have differs : key ≠ other.1 := fun equal =>
            nodup.1 (List.mem_map.mpr ⟨other, inRest, equal.symm⟩)
          simpa using differs
        simp [absent, eq_comm]
      · simp [beq_eq_false_iff_ne.mpr same, same]

end FirstWrite

section Upsert

variable {κ : Type u} {β : Type v} [BEq κ] [LawfulBEq κ]

/-- Change the value of a key, which starts at `fresh`. -/
def upsert (key : κ) (fresh : β) (change : β → β) : List (κ × β) → List (κ × β)
  | [] => [(key, change fresh)]
  | (held, value) :: rest =>
      if held == key then (held, change value) :: rest
      else (held, value) :: upsert key fresh change rest

theorem lookup_upsert (key sought : κ) (fresh : β) (change : β → β) (table : List (κ × β)) :
    (upsert key fresh change table).lookup sought =
      if sought == key then some (change ((table.lookup sought).getD fresh))
      else table.lookup sought := by
  induction table with
  | nil =>
      by_cases same : sought = key
      · simp [upsert, same]
      · simp [upsert, List.lookup_cons, beq_eq_false_iff_ne.mpr same]
  | cons entry rest ih =>
      rcases entry with ⟨held, value⟩
      by_cases own : held = key
      · subst own
        by_cases same : sought = held
        · simp [upsert, same]
        · simp [upsert, List.lookup_cons, beq_eq_false_iff_ne.mpr same]
      · by_cases here : sought = held
        · subst here
          simp [upsert, own]
        · have missed : (sought == held) = false := beq_eq_false_iff_ne.mpr here
          have other : (held == key) = false := beq_eq_false_iff_ne.mpr own
          simp only [upsert, other, Bool.false_eq_true, if_false, List.lookup_cons, missed, ih]

theorem mem_keys_upsert {key held : κ} {fresh : β} {change : β → β} {table : List (κ × β)}
    (member : held ∈ (upsert key fresh change table).map Prod.fst) :
    held = key ∨ held ∈ table.map Prod.fst := by
  induction table with
  | nil =>
      left
      simpa [upsert] using member
  | cons entry rest ih =>
      rcases entry with ⟨other, value⟩
      by_cases own : other = key
      · right
        simpa [upsert, own] using member
      · have apart : (other == key) = false := beq_eq_false_iff_ne.mpr own
        simp only [upsert, apart, Bool.false_eq_true, if_false, List.map_cons, List.mem_cons]
          at member
        rcases member with rfl | inRest
        · exact .inr List.mem_cons_self
        · rcases ih inRest with same | later
          · exact .inl same
          · exact .inr (List.mem_cons_of_mem other later)

theorem nodup_upsert {key : κ} {fresh : β} {change : β → β} {table : List (κ × β)}
    (nodup : (table.map Prod.fst).Nodup) :
    ((upsert key fresh change table).map Prod.fst).Nodup := by
  induction table with
  | nil => exact List.nodup_singleton key
  | cons entry rest ih =>
      rcases entry with ⟨other, value⟩
      by_cases own : other = key
      · simpa [upsert, own] using nodup
      · rw [List.map_cons, List.nodup_cons] at nodup
        have apart : (other == key) = false := beq_eq_false_iff_ne.mpr own
        simp only [upsert, apart, Bool.false_eq_true, if_false, List.map_cons, List.nodup_cons]
        constructor
        · intro member
          rcases mem_keys_upsert member with same | later
          · exact own same
          · exact nodup.1 later
        · exact ih nodup.2

variable {γ : Type w}

/-- What many changes leave for a key: those of its own items, in their order. -/
theorem lookup_foldl_upsert (key : γ → κ) (fresh : γ → β) (change : γ → β → β) (items : List γ)
    (table : List (κ × β)) (sought : κ) :
    (items.foldl (fun table item => upsert (key item) (fresh item) (change item) table)
        table).lookup sought =
      (items.filter (key · == sought)).foldl
        (fun old item => some (change item (old.getD (fresh item)))) (table.lookup sought) := by
  induction items generalizing table with
  | nil => rfl
  | cons item rest ih =>
      rw [List.foldl_cons, ih, lookup_upsert, List.filter_cons]
      by_cases same : key item = sought
      · simp [same]
      · simp [same, Ne.symm same]

omit [BEq κ] [LawfulBEq κ] in
/-- Changing an optional value by all items, once there is one. -/
theorem foldl_some_getD (change : γ → β → β) (fresh : β) (items : List γ) (old : Option β) :
    items.foldl (fun old item => some (change item (old.getD fresh))) old =
      if items = [] then old
      else some (items.foldl (fun value item => change item value) (old.getD fresh)) := by
  induction items generalizing old with
  | nil => rfl
  | cons item rest ih =>
      rw [List.foldl_cons, ih, if_neg (List.cons_ne_nil item rest), List.foldl_cons,
        Option.getD_some]
      split
      next last => rw [last, List.foldl_nil]
      · rfl

theorem nodup_foldl_upsert (key : γ → κ) (fresh : γ → β) (change : γ → β → β) (items : List γ)
    {table : List (κ × β)} (nodup : (table.map Prod.fst).Nodup) :
    ((items.foldl (fun table item => upsert (key item) (fresh item) (change item) table)
      table).map Prod.fst).Nodup := by
  induction items generalizing table with
  | nil => exact nodup
  | cons item rest ih => exact ih (nodup_upsert nodup)

end Upsert

end Rigor.Library.Grouping

