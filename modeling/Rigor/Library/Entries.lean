import Mathlib.Data.List.Perm.Lattice

/-!
# Entries by key

An ordered map as a list of entries, where an equivalence decides which keys are the same.
-/

namespace Rigor.Library.Entries

universe u v

variable {K : Type u} {V : Type v}

/-- Which keys are the same. -/
structure Sameness (K : Type u) where
  same : K → K → Bool
  refl (a : K) : same a a = true
  symm {a b : K} : same a b = true → same b a = true
  trans {a b c : K} : same a b = true → same b c = true → same a c = true

namespace Sameness

variable (S : Sameness K)

def get? (key : K) (entries : List (K × V)) : Option V :=
  (entries.find? fun entry => S.same key entry.1).map Prod.snd

/-- Replaces the value in its place, or adds the entry at the end. -/
def insert (key : K) (value : V) : List (K × V) → List (K × V)
  | [] => [(key, value)]
  | (key', value') :: rest =>
      if S.same key key' then (key', value) :: rest else (key', value') :: insert key value rest

/-- Removes an entry and moves the last one to its place. -/
def swapRemove (key : K) (entries : List (K × V)) : List (K × V) :=
  let front := entries.takeWhile fun entry => !S.same key entry.1
  match entries.dropWhile fun entry => !S.same key entry.1 with
  | [] => front
  | _ :: back => front ++ (back.getLast?.toList ++ back.dropLast)

/-- No two entries have the same key. -/
def Distinct (entries : List (K × V)) : Prop :=
  entries.Pairwise fun a b => ¬ S.same a.1 b.1 = true

variable {S} {key key' : K} {value : V} {entries : List (K × V)}

theorem same_congr {a b : K} (alike : S.same a b = true) (c : K) : S.same a c = S.same b c := by
  rw [Bool.eq_iff_iff]
  exact ⟨S.trans (S.symm alike), S.trans alike⟩

theorem same_comm (a b : K) : S.same a b = S.same b a := by
  rw [Bool.eq_iff_iff]
  exact ⟨S.symm, S.symm⟩

theorem get?_congr (alike : S.same key key' = true) (entries : List (K × V)) :
    S.get? key entries = S.get? key' entries := by
  simp only [get?, same_congr alike]

@[simp] theorem get?_nil (key : K) : S.get? key ([] : List (K × V)) = none :=
  rfl

theorem get?_cons (entry : K × V) : S.get? key (entry :: entries) =
    if S.same key entry.1 then some entry.2 else S.get? key entries := by
  rw [get?, List.find?_cons]
  cases S.same key entry.1 <;> rfl

theorem exists_of_get? (found : S.get? key entries = some value) :
    ∃ key', (key', value) ∈ entries ∧ S.same key key' = true := by
  rcases Option.map_eq_some_iff.mp found with ⟨entry, here, rfl⟩
  have alike := List.find?_some here
  exact ⟨entry.1, List.mem_of_find?_eq_some here, alike⟩

theorem Distinct.perm {others : List (K × V)} (distinct : S.Distinct entries)
    (perm : entries.Perm others) : S.Distinct others :=
  (perm.pairwise_iff fun differs alike => differs (S.symm alike)).mp distinct

/-! ## Insertion -/

theorem get?_insert (key key' : K) (value : V) (entries : List (K × V)) :
    S.get? key' (S.insert key value entries) =
      if S.same key key' then some value else S.get? key' entries := by
  induction entries with
  | nil =>
      rw [insert, get?_cons, same_comm key' key]
  | cons entry rest ih =>
      rw [insert]
      by_cases here : S.same key entry.1 = true
      · rw [if_pos here, get?_cons, get?_cons, same_comm key' entry.1, ← same_congr here key']
        split <;> rfl
      · rw [if_neg here, get?_cons, get?_cons, ih]
        by_cases alike : S.same key key' = true
        · have differs : ¬ S.same key' entry.1 = true := fun alike' => here (S.trans alike alike')
          simp [differs, alike]
        · simp [alike]

theorem mem_insert {entry : K × V} (mem : entry ∈ S.insert key value entries) :
    entry ∈ entries ∨ entry.2 = value := by
  induction entries with
  | nil =>
      cases List.mem_singleton.mp mem
      exact .inr rfl
  | cons first rest ih =>
      rw [insert] at mem
      split at mem
      · rcases List.mem_cons.mp mem with rfl | mem
        · exact .inr rfl
        · exact .inl (List.mem_cons_of_mem _ mem)
      · rcases List.mem_cons.mp mem with rfl | mem
        · exact .inl List.mem_cons_self
        · exact (ih mem).imp (List.mem_cons_of_mem _) id

theorem same_of_mem_insert {entry : K × V} (mem : entry ∈ S.insert key value entries) :
    entry.1 = key ∨ ∃ value', (entry.1, value') ∈ entries := by
  induction entries with
  | nil =>
      cases List.mem_singleton.mp mem
      exact .inl rfl
  | cons first rest ih =>
      rw [insert] at mem
      split at mem
      · rcases List.mem_cons.mp mem with same | mem
        · rw [same]
          exact .inr ⟨first.2, List.mem_cons_self⟩
        · exact .inr ⟨entry.2, List.mem_cons_of_mem _ mem⟩
      · rcases List.mem_cons.mp mem with rfl | mem
        · exact .inr ⟨first.2, List.mem_cons_self⟩
        · rcases ih mem with same | ⟨value', inside⟩
          · exact .inl same
          · exact .inr ⟨value', List.mem_cons_of_mem _ inside⟩

theorem Distinct.insert (distinct : S.Distinct entries) (key : K) (value : V) :
    S.Distinct (S.insert key value entries) := by
  induction entries with
  | nil => exact List.pairwise_singleton _ _
  | cons entry rest ih =>
      rcases List.pairwise_cons.mp distinct with ⟨apart, distinct⟩
      rw [Sameness.insert]
      split
      · exact List.pairwise_cons.mpr ⟨apart, distinct⟩
      · rename_i differs
        apply List.pairwise_cons.mpr
        constructor
        · intro other mem alike
          rcases same_of_mem_insert mem with same | ⟨value', inside⟩
          · rw [same] at alike
            exact differs (S.symm alike)
          · exact apart _ inside alike
        · exact ih distinct

theorem insert_of_get?_none (missing : S.get? key entries = none) :
    S.insert key value entries = entries ++ [(key, value)] := by
  induction entries with
  | nil => rfl
  | cons entry rest ih =>
      rw [get?_cons] at missing
      by_cases here : S.same key entry.1 = true
      · rw [if_pos here] at missing
        contradiction
      · rw [if_neg here] at missing
        rw [insert, if_neg here, ih missing]
        rfl

/-! ## Removal -/

theorem lastFirst_perm {α : Type u} (items : List α) :
    (items.getLast?.toList ++ items.dropLast).Perm items := by
  cases empty : items.getLast? with
  | none =>
      rw [List.getLast?_eq_none_iff.mp empty]
      rfl
  | some last =>
      have split := List.dropLast_append_getLast? last empty
      have turned : ([last] ++ items.dropLast).Perm (items.dropLast ++ [last]) := List.perm_append_comm
      rw [split] at turned
      exact turned

/-- The other entries, in some order. -/
theorem swapRemove_perm (key : K) (entries : List (K × V)) (distinct : S.Distinct entries) :
    (S.swapRemove key entries).Perm (entries.filter fun entry => !S.same key entry.1) := by
  induction entries with
  | nil => rfl
  | cons entry rest ih =>
      rcases List.pairwise_cons.mp distinct with ⟨apart, distinct⟩
      by_cases here : S.same key entry.1 = true
      · have others : rest.filter (fun entry => !S.same key entry.1) = rest := by
          rw [List.filter_eq_self]
          intro other mem
          rw [same_congr here, Bool.not_eq_true', ← Bool.not_eq_true]
          exact apart other mem
        simp only [swapRemove, List.takeWhile_cons, List.dropWhile_cons, List.filter_cons, here, others]
        exact lastFirst_perm rest
      · have later : S.swapRemove key (entry :: rest) = entry :: S.swapRemove key rest := by
          simp only [swapRemove, List.takeWhile_cons, List.dropWhile_cons, here]
          simp only [Bool.not_false, if_true]
          split <;> rfl
        rw [later, List.filter_cons_of_pos (by simpa using here)]
        exact (ih distinct).cons entry

theorem Distinct.swapRemove (distinct : S.Distinct entries) (key : K) :
    S.Distinct (S.swapRemove key entries) :=
  Distinct.perm (List.Pairwise.filter _ distinct) (swapRemove_perm key entries distinct).symm

end Sameness

end Rigor.Library.Entries
