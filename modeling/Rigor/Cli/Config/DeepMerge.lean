import Rigor.Cli.Config.Values

/-!
# Merging configurations

`deep_merge` and `merge_dependencies_hash` of `config.rs`: the right value wins, two mappings are
merged key by key, and under the key `dependencies` the lists of `source_inference` are joined.
-/

namespace Rigor.Cli.Config

open Rigor.Library.Entries

variable {N : Type}

def dependencies : Text :=
  "dependencies".toList

def sourceInference : Text :=
  "source_inference".toList

/-- `Value::get` of a string, which looks through tags. -/
def Value.get? (E : SerdeYaml N) (key : Text) : Value N → Option (Value N)
  | .mapping entries => E.get? (.string key) entries
  | .tagged _ value => value.get? E key
  | _ => none

/-- The end of `merge_dependencies_hash`, given the merged mapping. -/
def joinSourceInference (E : SerdeYaml N) (left right out : Value N) : Value N :=
  let lsi := (left.get? E sourceInference).map rubyArrayRaw
  let rsi := (right.get? E sourceInference).map rubyArrayRaw
  let joined := lsi.getD [] ++ rsi.getD []
  if joined.isEmpty then out
  else match out with
    | .mapping entries => .mapping (E.insert (.string sourceInference) (.sequence joined) entries)
    | other => other

mutual

def deepMerge (E : SerdeYaml N) (left : Value N) : Value N → Value N
  | .mapping r =>
      match left with
      | .mapping l => .mapping (mergeEntries E l r)
      | _ => .mapping r
  | right => right

/-- The loop over the entries of the right mapping. -/
def mergeEntries (E : SerdeYaml N) (merged : Mapping N) : List (Value N × Value N) → Mapping N
  | [] => merged
  | (k, v) :: rest =>
      let entry := match E.get? k merged, v with
        | some (.mapping lv), .mapping _ =>
            if k.asStr = some dependencies then
              joinSourceInference E (.mapping lv) v (deepMerge E (.mapping lv) v)
            else deepMerge E (.mapping lv) v
        | _, _ => v
      mergeEntries E (E.insert k entry merged) rest

end

def mergeDependenciesHash (E : SerdeYaml N) (left right : Value N) : Value N :=
  joinSourceInference E left right (deepMerge E left right)

/-- The new value of a key, from the one it has so far. -/
def mergedValue (E : SerdeYaml N) (key : Value N) (old : Option (Value N)) (v : Value N) : Value N :=
  match old, v with
  | some (.mapping lv), .mapping _ =>
      if key.asStr = some dependencies then mergeDependenciesHash E (.mapping lv) v
      else deepMerge E (.mapping lv) v
  | _, _ => v

section Merge

variable {E : SerdeYaml N}

theorem deepMerge_mapping (l r : Mapping N) :
    deepMerge E (.mapping l) (.mapping r) = .mapping (mergeEntries E l r) := by
  rw [deepMerge]

theorem deepMerge_of_left {left : Value N} (noMapping : ∀ entries, left ≠ .mapping entries)
    (right : Value N) : deepMerge E left right = right := by
  cases right with
  | mapping r =>
      cases left with
      | mapping l => exact absurd rfl (noMapping l)
      | _ => rfl
  | _ => rfl

theorem deepMerge_of_right {right : Value N} (noMapping : ∀ entries, right ≠ .mapping entries)
    (left : Value N) : deepMerge E left right = right := by
  cases right with
  | mapping r => exact absurd rfl (noMapping r)
  | _ => rfl

theorem joinSourceInference_mapping (left right : Value N) (entries : Mapping N) :
    joinSourceInference E left right (.mapping entries) =
      .mapping (if (((left.get? E sourceInference).map rubyArrayRaw).getD [] ++
          ((right.get? E sourceInference).map rubyArrayRaw).getD []).isEmpty then entries
        else E.insert (.string sourceInference) (.sequence
          (((left.get? E sourceInference).map rubyArrayRaw).getD [] ++
            ((right.get? E sourceInference).map rubyArrayRaw).getD [])) entries) := by
  rw [joinSourceInference.eq_def]
  dsimp only
  split <;> rfl

theorem mergeEntries_nil (l : Mapping N) : mergeEntries E l [] = l := by
  rw [mergeEntries]

theorem mergeEntries_cons (l : Mapping N) (k v : Value N) (rest : Mapping N) :
    mergeEntries E l ((k, v) :: rest) =
      mergeEntries E (E.insert k (mergedValue E k (E.get? k l) v) l) rest := by
  rw [mergeEntries.eq_def]
  rfl

theorem mergedValue_congr {k k' : Value N} (alike : E.same k k' = true) (old : Option (Value N))
    (v : Value N) : mergedValue E k old v = mergedValue E k' old v := by
  simp only [mergedValue, E.asStr_same alike]

theorem mergedValue_of_not_mapping {v : Value N} (noMapping : ∀ entries, v ≠ .mapping entries)
    (k : Value N) (old : Option (Value N)) : mergedValue E k old v = v := by
  cases v with
  | mapping entries => exact absurd rfl (noMapping entries)
  | _ =>
      rcases old with _ | old
      · rfl
      · cases old <;> rfl

/-- Each key of the right mapping has its value, merged with that of the left one. -/
theorem get?_mergeEntries {l r : Mapping N} (distinct : E.Distinct r) (k : Value N) :
    E.get? k (mergeEntries E l r) = match E.get? k r with
      | none => E.get? k l
      | some v => some (mergedValue E k (E.get? k l) v) := by
  induction r generalizing l with
  | nil => rw [mergeEntries_nil, Sameness.get?_nil]
  | cons entry rest ih =>
      rcases entry with ⟨k', v⟩
      rcases List.pairwise_cons.mp distinct with ⟨apart, distinct⟩
      rw [mergeEntries_cons, ih distinct, Sameness.get?_insert, Sameness.get?_cons,
        Sameness.same_comm k k']
      by_cases alike : E.same k' k = true
      · have missing : E.get? k rest = none := by
          cases found : E.get? k rest with
          | none => rfl
          | some value =>
              rcases Sameness.exists_of_get? found with ⟨key, mem, alike'⟩
              exact absurd (E.trans alike alike') (apart _ mem)
        rw [missing, if_pos alike, if_pos alike, Sameness.get?_congr alike, mergedValue_congr alike]
      · rw [if_neg alike, if_neg alike]

/-! ## Distinct keys -/

namespace WellKeyed

variable {l r : Mapping N} {v : Value N}

theorem distinct (wellKeyed : WellKeyed E.toSameness (.mapping l)) : E.Distinct l := by
  cases wellKeyed with
  | mapping keys values => exact keys
  | other noMapping => exact absurd rfl (noMapping l)

theorem values (wellKeyed : WellKeyed E.toSameness (.mapping l)) :
    ∀ entry ∈ l, WellKeyed E.toSameness entry.2 := by
  cases wellKeyed with
  | mapping keys values => exact values
  | other noMapping => exact absurd rfl (noMapping l)

theorem get? {k : Value N} (wellKeyed : WellKeyed E.toSameness (.mapping l))
    (found : E.get? k l = some v) : WellKeyed E.toSameness v := by
  rcases Sameness.exists_of_get? found with ⟨key, mem, -⟩
  exact wellKeyed.values _ mem

theorem insert (wellKeyed : WellKeyed E.toSameness (.mapping l)) (k : Value N)
    (value : WellKeyed E.toSameness v) : WellKeyed E.toSameness (.mapping (E.insert k v l)) := by
  apply mapping (wellKeyed.distinct.insert k v)
  intro entry mem
  rcases Sameness.mem_insert mem with old | new
  · exact wellKeyed.values entry old
  · rw [new]
    exact value

theorem joinSourceInference {left right : Value N} (value : WellKeyed E.toSameness (.mapping l)) :
    WellKeyed E.toSameness (joinSourceInference E left right (.mapping l)) := by
  rw [joinSourceInference_mapping]
  split
  · exact value
  · exact value.insert _ (.other nofun)

theorem mergedValue {k : Value N} {old : Option (Value N)} (value : WellKeyed E.toSameness v)
    (merged : ∀ l, old = some (.mapping l) → WellKeyed E.toSameness (deepMerge E (.mapping l) v)) :
    WellKeyed E.toSameness (mergedValue E k old v) := by
  rw [Config.mergedValue.eq_def]
  split
  · rename_i l r
    have merged := merged l rfl
    rw [deepMerge_mapping] at merged
    split
    · rw [mergeDependenciesHash, deepMerge_mapping]
      exact merged.joinSourceInference
    · rw [deepMerge_mapping]
      exact merged
  · exact value

theorem deepMerge {left right : Value N} (wellKeyed : WellKeyed E.toSameness right)
    (first : WellKeyed E.toSameness left) : WellKeyed E.toSameness (deepMerge E left right) := by
  induction wellKeyed generalizing left with
  | @mapping entries keys values ih =>
      by_cases isMapping : ∃ l, left = .mapping l
      · rcases isMapping with ⟨l, rfl⟩
        rw [deepMerge_mapping]
        clear keys
        induction entries generalizing l with
        | nil =>
            rw [mergeEntries_nil]
            exact first
        | cons entry rest ihRest =>
            rcases entry with ⟨k, v⟩
            rw [List.forall_mem_cons] at values
            rw [mergeEntries_cons]
            apply ihRest values.2 (fun other mem => ih other (List.mem_cons_of_mem _ mem))
            apply first.insert
            apply values.1.mergedValue
            intro l' found
            exact ih (k, v) List.mem_cons_self (first.get? found)
      · rw [deepMerge_of_left (fun l same => isMapping ⟨l, same⟩)]
        exact .mapping keys values
  | other noMapping =>
      rw [deepMerge_of_right noMapping]
      exact .other noMapping

theorem mergeEntries (right : WellKeyed E.toSameness (.mapping r))
    (left : WellKeyed E.toSameness (.mapping l)) :
    WellKeyed E.toSameness (.mapping (mergeEntries E l r)) := by
  rw [← deepMerge_mapping]
  exact right.deepMerge left

end WellKeyed

/-! ## Several documents -/

/-- The deep merge of documents from left to right. -/
def mergeAll (E : SerdeYaml N) (documents : List (Mapping N)) : Mapping N :=
  documents.foldl (mergeEntries E) []

/-- The values the documents give to a key. -/
def writers (E : SerdeYaml N) (key : Value N) (documents : List (Mapping N)) : List (Value N) :=
  documents.filterMap (E.get? key)

/-- The entries of `dependencies.source_inference`, read as a list. -/
def sources (E : SerdeYaml N) (dependencies : Mapping N) : List (Value N) :=
  ((E.get? (.string sourceInference) dependencies).map rubyArrayRaw).getD []

/-- What the documents say, key by key. -/
structure MergeLaws (E : SerdeYaml N) (documents : List (Mapping N)) (merged : Mapping N) : Prop where
  absent : ∀ key, writers E key documents = [] → E.get? key merged = none
  last : ∀ key earlier value, writers E key documents = earlier ++ [value] →
    (∀ entries, value ≠ .mapping entries) → E.get? key merged = some value
  nested : ∀ key earlier run, writers E key documents = earlier ++ run.map .mapping → run ≠ [] →
    (∀ value ∈ earlier.getLast?, ∀ entries, value ≠ .mapping entries) →
    key.asStr ≠ some dependencies → E.get? key merged = some (.mapping (mergeAll E run))
  joined : ∀ key earlier run, writers E key documents = earlier ++ run.map .mapping → run ≠ [] →
    (∀ value ∈ earlier.getLast?, ∀ entries, value ≠ .mapping entries) →
    key.asStr = some dependencies → ∃ entries, E.get? key merged = some (.mapping entries) ∧
      sources E entries = run.flatMap (sources E) ∧
      ∀ other, ¬ E.same (.string sourceInference) other = true →
        E.get? other entries = E.get? other (mergeAll E run)

theorem mergeAll_concat (documents : List (Mapping N)) (last : Mapping N) :
    mergeAll E (documents ++ [last]) = mergeEntries E (mergeAll E documents) last := by
  simp [mergeAll]

theorem writers_concat (key : Value N) (documents : List (Mapping N)) (last : Mapping N) :
    writers E key (documents ++ [last]) = writers E key documents ++ (E.get? key last).toList := by
  rw [writers, List.filterMap_append]
  cases found : E.get? key last <;> simp [writers, found]

/-- The value of a key is made of those the documents give it. -/
theorem get?_mergeAll {documents : List (Mapping N)} (distinct : ∀ d ∈ documents, E.Distinct d)
    (key : Value N) : E.get? key (mergeAll E documents) =
      (writers E key documents).foldl (fun old value => some (mergedValue E key old value)) none := by
  induction documents using List.reverseRecOn with
  | nil => rfl
  | append_singleton documents last ih =>
      have distinctLast := distinct last (by simp)
      have ih := ih fun d mem => distinct d (List.mem_append_left _ mem)
      rw [mergeAll_concat, writers_concat, get?_mergeEntries distinctLast, ih, List.foldl_append]
      cases E.get? key last <;> rfl

/-- A single document stays as it is. -/
theorem mergeEntries_of_fresh {l r : Mapping N} (distinct : E.Distinct (l ++ r)) :
    mergeEntries E l r = l ++ r := by
  induction r generalizing l with
  | nil => rw [mergeEntries_nil, List.append_nil]
  | cons entry rest ih =>
      rcases entry with ⟨k, v⟩
      have missing : E.get? k l = none := by
        cases found : E.get? k l with
        | none => rfl
        | some value =>
            rcases Sameness.exists_of_get? found with ⟨key, mem, alike⟩
            have apart := (List.pairwise_append.mp distinct).2.2 _ mem _ List.mem_cons_self
            exact absurd (E.symm alike) apart
      have same : mergedValue E k none v = v := rfl
      have moved : l ++ (k, v) :: rest = l ++ [(k, v)] ++ rest := List.append_cons l (k, v) rest
      rw [moved] at distinct
      rw [mergeEntries_cons, missing, same, Sameness.insert_of_get?_none missing, ih distinct, moved]

theorem mergeAll_singleton {document : Mapping N} (distinct : E.Distinct document) :
    mergeAll E [document] = document :=
  mergeEntries_of_fresh distinct

theorem mergedValue_of_old {old : Option (Value N)} (noMapping : ∀ entries, old ≠ some (.mapping entries))
    (key value : Value N) : mergedValue E key old value = value := by
  rw [mergedValue.eq_def]
  split
  · rename_i l r
    exact absurd rfl (noMapping l)
  · rfl

/-- The values of one key, folded. -/
def foldValues (E : SerdeYaml N) (key : Value N) (values : List (Value N)) : Option (Value N) :=
  values.foldl (fun old value => some (mergedValue E key old value)) none

theorem foldValues_concat (key : Value N) (values : List (Value N)) (last : Value N) :
    foldValues E key (values ++ [last]) = some (mergedValue E key (foldValues E key values) last) := by
  simp [foldValues]

theorem foldValues_last {value : Value N} (noMapping : ∀ entries, value ≠ .mapping entries)
    (key : Value N) (earlier : List (Value N)) : foldValues E key (earlier ++ [value]) = some value := by
  rw [foldValues_concat, mergedValue_of_not_mapping noMapping]

theorem foldValues_not_mapping {earlier : List (Value N)}
    (ends : ∀ value ∈ earlier.getLast?, ∀ entries, value ≠ .mapping entries) (key : Value N) :
    ∀ entries, foldValues E key earlier ≠ some (.mapping entries) := by
  intro entries
  rcases List.eq_nil_or_concat earlier with rfl | ⟨front, value, rfl⟩
  · exact nofun
  · have noMapping := ends value (by simp)
    rw [List.concat_eq_append, foldValues_last noMapping]
    exact fun same => noMapping entries (Option.some.inj same)

/-- The first mapping behind other values stays as it is. -/
theorem foldValues_first {earlier : List (Value N)}
    (ends : ∀ value ∈ earlier.getLast?, ∀ entries, value ≠ .mapping entries) (key : Value N)
    (first : Mapping N) : foldValues E key (earlier ++ [.mapping first]) = some (.mapping first) := by
  rw [foldValues_concat, mergedValue_of_old (foldValues_not_mapping ends key)]

/-- A run of mappings behind other values is merged. -/
theorem foldValues_run {earlier : List (Value N)} {run : List (Mapping N)} {key : Value N}
    (ends : ∀ value ∈ earlier.getLast?, ∀ entries, value ≠ .mapping entries)
    (ordinary : key.asStr ≠ some dependencies) (distinct : ∀ d ∈ run, E.Distinct d) (some : run ≠ []) :
    foldValues E key (earlier ++ run.map .mapping) = Option.some (.mapping (mergeAll E run)) := by
  induction run using List.reverseRecOn with
  | nil => contradiction
  | append_singleton run last ih =>
      have distinctLast := distinct last (by simp)
      by_cases empty : run = []
      · subst empty
        rw [List.nil_append, mergeAll_singleton distinctLast]
        exact foldValues_first ends key last
      · rw [List.map_append, ← List.append_assoc, List.map_singleton, foldValues_concat,
          ih (fun d mem => distinct d (List.mem_append_left _ mem)) empty, mergeAll_concat,
          mergedValue.eq_def]
        simp only [if_neg ordinary, deepMerge_mapping]

/-! ## The lists under `dependencies` -/

/-- The entries `merge_dependencies_hash` makes of two mappings. -/
def mergeDependencies (E : SerdeYaml N) (l r : Mapping N) : Mapping N :=
  if (sources E l ++ sources E r).isEmpty then mergeEntries E l r
  else E.insert (.string sourceInference) (.sequence (sources E l ++ sources E r)) (mergeEntries E l r)

theorem mergeDependenciesHash_mapping (l r : Mapping N) :
    mergeDependenciesHash E (.mapping l) (.mapping r) = .mapping (mergeDependencies E l r) := by
  rw [mergeDependenciesHash, deepMerge_mapping, joinSourceInference_mapping]
  rfl

theorem rubyArrayRaw_eq_nil {v : Value N} (empty : rubyArrayRaw v = []) :
    v = .null ∨ v = .sequence [] ∨ v = .mapping [] := by
  cases v with
  | null => exact .inl rfl
  | sequence items =>
      rw [rubyArrayRaw] at empty
      exact .inr (.inl (by rw [empty]))
  | mapping entries =>
      rw [rubyArrayRaw, List.map_eq_nil_iff] at empty
      exact .inr (.inr (by rw [empty]))
  | _ => contradiction

theorem rubyArrayRaw_mergedValue {key v : Value N} {old : Option (Value N)}
    (plain : key.asStr ≠ some dependencies) (left : (old.map rubyArrayRaw).getD [] = [])
    (right : rubyArrayRaw v = []) : rubyArrayRaw (mergedValue E key old v) = [] := by
  have null : ∀ entries, (Value.null : Value N) ≠ .mapping entries := nofun
  have sequence : ∀ entries, (Value.sequence [] : Value N) ≠ .mapping entries := nofun
  rcases rubyArrayRaw_eq_nil right with rfl | rfl | rfl
  · rw [mergedValue_of_not_mapping null, right]
  · rw [mergedValue_of_not_mapping sequence, right]
  · rw [mergedValue.eq_def]
    split
    · rename_i lv entries old same
      cases same
      have emptyLeft : rubyArrayRaw (.mapping entries) = [] := left
      rcases rubyArrayRaw_eq_nil emptyLeft with impossible | impossible | empty
      · contradiction
      · contradiction
      · cases empty
        rw [if_neg plain, deepMerge_mapping, mergeEntries_nil]
        rfl
    · exact right

theorem sources_mergeEntries {l r : Mapping N} (distinct : E.Distinct r) (left : sources E l = [])
    (right : sources E r = []) : sources E (mergeEntries E l r) = [] := by
  rw [sources, get?_mergeEntries distinct]
  cases found : E.get? (.string sourceInference) r with
  | none => exact left
  | some v =>
      rw [sources, found] at right
      have plain : some sourceInference ≠ some dependencies := by decide
      exact rubyArrayRaw_mergedValue plain left right

theorem sources_mergeDependencies {l r : Mapping N} (distinct : E.Distinct r) :
    sources E (mergeDependencies E l r) = sources E l ++ sources E r := by
  rw [mergeDependencies]
  split
  · rename_i empty
    rw [List.isEmpty_iff] at empty
    rcases List.append_eq_nil_iff.mp empty with ⟨left, right⟩
    rw [sources_mergeEntries distinct left right, left, right, List.append_nil]
  · rw [sources, Sameness.get?_insert, if_pos (E.refl _)]
    rfl

theorem get?_mergeDependencies (l r : Mapping N) {other : Value N}
    (differs : ¬ E.same (.string sourceInference) other = true) :
    E.get? other (mergeDependencies E l r) = E.get? other (mergeEntries E l r) := by
  rw [mergeDependencies]
  split
  · rfl
  · rw [Sameness.get?_insert, if_neg differs]

/-- The mappings under `dependencies` are merged, and their sources joined. -/
theorem foldValues_dependencies {earlier : List (Value N)} {run : List (Mapping N)} {key : Value N}
    (ends : ∀ value ∈ earlier.getLast?, ∀ entries, value ≠ .mapping entries)
    (special : key.asStr = some dependencies) (distinct : ∀ d ∈ run, E.Distinct d) (some : run ≠ []) :
    ∃ entries, foldValues E key (earlier ++ run.map .mapping) = Option.some (.mapping entries) ∧
      sources E entries = run.flatMap (sources E) ∧
      ∀ other, ¬ E.same (.string sourceInference) other = true →
        E.get? other entries = E.get? other (mergeAll E run) := by
  induction run using List.reverseRecOn with
  | nil => contradiction
  | append_singleton run last ih =>
      have distinctLast := distinct last (by simp)
      by_cases empty : run = []
      · subst empty
        rw [List.nil_append, mergeAll_singleton distinctLast]
        exact ⟨last, foldValues_first ends key last, by simp, fun _ _ => rfl⟩
      · rcases ih (fun d mem => distinct d (List.mem_append_left _ mem)) empty with
          ⟨entries, folded, joined, others⟩
        rw [List.map_append, ← List.append_assoc, List.map_singleton, foldValues_concat, folded,
          mergedValue.eq_def]
        simp only [if_pos special, mergeDependenciesHash_mapping]
        apply Exists.intro (mergeDependencies E entries last)
        apply And.intro rfl
        constructor
        · rw [sources_mergeDependencies distinctLast, joined]
          simp
        · intro other differs
          rw [get?_mergeDependencies _ _ differs, mergeAll_concat, get?_mergeEntries distinctLast,
            get?_mergeEntries distinctLast, others other differs]

/-- The merge of documents follows the laws. -/
theorem mergeAll_laws {documents : List (Mapping N)}
    (wellKeyed : ∀ d ∈ documents, WellKeyed E.toSameness (.mapping d)) :
    MergeLaws E documents (mergeAll E documents) := by
  have get?_eq : ∀ key, E.get? key (mergeAll E documents) = foldValues E key (writers E key documents) :=
    get?_mergeAll fun d mem => (wellKeyed d mem).distinct
  have ofRun : ∀ key earlier (run : List (Mapping N)),
      writers E key documents = earlier ++ run.map .mapping → ∀ d ∈ run, E.Distinct d := by
    intro key earlier run split d mem
    have written : Value.mapping d ∈ writers E key documents := by
      rw [split]
      exact List.mem_append_right _ (List.mem_map_of_mem mem)
    rcases List.mem_filterMap.mp written with ⟨document, inside, found⟩
    exact ((wellKeyed document inside).get? found).distinct
  constructor
  · intro key none
    rw [get?_eq, none]
    rfl
  · intro key earlier value split noMapping
    rw [get?_eq, split, foldValues_last noMapping]
  · intro key earlier run split some ends ordinary
    rw [get?_eq, split]
    exact foldValues_run ends ordinary (ofRun key earlier run split) some
  · intro key earlier run split some ends special
    rw [get?_eq, split]
    exact foldValues_dependencies ends special (ofRun key earlier run split) some

end Merge

end Rigor.Cli.Config
