import Rigor.Cli.Config.IncludeTree
import Rigor.Library.Grouping

/-!
# Loading follows the tree

The loader ends, answers the merge of the tree of included files or its first failure, and joins the
lists of `dependencies.source_inference` in the order of loading.
-/

namespace Rigor.Cli.Config

open Rigor.Library.Entries Rigor.Rust Relation

variable {N : Type} {E : SerdeYaml N} {host : Host N} {files : Files N}

/-! ## The loader against the tree -/

/-- What an outcome says about the tree. -/
def Tells (E : SerdeYaml N) (host : Host N) (files : Files N) (chain : List PathBytes)
    (path : PathBytes) : Except LoadFailure (Mapping N × Notes) → Prop
  | .ok (merged, _) => ∃ order, Loads E host files chain [path] [merged] order
  | .error failure => Fails E host files chain path failure

/-- What the loop over the included files says about the tree. -/
theorem mergeFrom_tells {chain : List PathBytes} {path : PathBytes}
    {load : PathBytes → Notes → Option (Except LoadFailure (Mapping N × Notes))}
    (tells : ∀ next notes outcome, load next notes = some outcome →
      Tells E host files chain next outcome) {includes : List (Value N)} {accumulated : Mapping N}
    {notes : Notes} {outcome : Except LoadFailure (Mapping N × Notes)}
    (ran : mergeFrom E host files (pop path) load includes accumulated notes = some outcome) :
    (∃ merged notes' entered maps order, outcome = .ok (merged, notes') ∧
      List.Forall₂ (Enters host files path) includes entered ∧
      Loads E host files chain entered maps order ∧
      merged = maps.foldl (mergeEntries E) accumulated) ∨
    ∃ failure before inc after entered maps order, outcome = .error failure ∧
      includes = before ++ inc :: after ∧ List.Forall₂ (Enters host files path) before entered ∧
      Loads E host files chain entered maps order ∧
      (Refuses host files path inc failure ∨
        ∃ next, Enters host files path inc next ∧ Fails E host files chain next failure) := by
  induction includes generalizing accumulated notes with
  | nil =>
      cases ran
      exact .inl ⟨accumulated, notes, [], [], [], rfl, .nil, .nil, rfl⟩
  | cons inc includes ih =>
      rw [mergeFrom] at ran
      split at ran
      · rename_i failure expanded
        cases ran
        exact .inr ⟨failure, [], inc, includes, [], [], [], rfl, rfl, .nil, .nil, .inl (.inl expanded)⟩
      · rename_i next expanded
        split at ran
        · rename_i absent
          cases ran
          rw [Option.isNone_iff_eq_none] at absent
          exact .inr ⟨_, [], inc, includes, [], [], [], rfl, rfl, .nil, .nil,
            .inl (.inr ⟨next, expanded, absent, rfl⟩)⟩
        · rename_i present
          have enters : Enters host files path inc next := by
            rw [Option.isNone_iff_eq_none] at present
            exact ⟨expanded, Option.isSome_iff_ne_none.mpr present⟩
          split at ran
          · contradiction
          · rename_i failure loaded
            cases ran
            exact .inr ⟨failure, [], inc, includes, [], [], [], rfl, rfl, .nil, .nil,
              .inr ⟨next, enters, tells next notes _ loaded⟩⟩
          · rename_i sub notes' loaded
            rcases tells next notes _ loaded with ⟨first, single⟩
            rcases ih ran with ⟨merged, notes'', entered, maps, order, rfl, entered', loads, rfl⟩ |
              ⟨failure, before, inc', after, entered, maps, order, rfl, rfl, earlier, loads, bad⟩
            · exact .inl ⟨_, notes'', next :: entered, sub :: maps, first ++ order, rfl,
                .cons enters entered', single.append_single loads, rfl⟩
            · exact .inr ⟨failure, inc :: before, inc', after, next :: entered, sub :: maps,
                first ++ order, rfl, rfl, .cons enters earlier, single.append_single loads, bad⟩

theorem lookup_of_readYaml {path : PathBytes} {file : ConfigFile N}
    (read : readYaml files path = .ok file) : files.lookup path = some file := by
  rw [readYaml] at read
  split at read
  · rename_i file' found
    cases read
    exact found
  · contradiction

/-- Whatever the loader answers is true of the tree. -/
theorem loadWithIncludes_tells {fuel : Nat} {path : PathBytes} {chain : List PathBytes} {notes : Notes}
    {outcome : Except LoadFailure (Mapping N × Notes)}
    (ran : loadWithIncludes E host files fuel path chain notes = some outcome) :
    Tells E host files chain path outcome := by
  induction fuel generalizing path chain notes outcome with
  | zero => contradiction
  | succ fuel ih =>
      rw [loadWithIncludes] at ran
      split at ran
      · rename_i again
        cases ran
        exact .circular again
      · rename_i fresh
        split at ran
        · rename_i failure unread
          cases ran
          apply Fails.unreadable fresh
          rw [ownKeys, unread]
          rfl
        · rename_i raw read
          have found := lookup_of_readYaml read
          have own_eq : ownKeys E host files path =
              resolvePathsIn E host (E.swapRemove (.string "includes".toList) raw.keys) (pop path) := by
            rw [ownKeys, read]
            rfl
          have includes_eq : includesAt E files path = includesOf E raw.keys := by
            rw [includesAt, found]
          dsimp only at ran
          split at ran
          · rename_i failure unresolved
            cases ran
            exact .unreadable fresh (own_eq.trans unresolved)
          · rename_i data resolved
            have own := own_eq.trans resolved
            rw [← includes_eq, mergeIncludes] at ran
            split at ran
            · rename_i accumulated notes' merged
              cases ran
              rcases mergeFrom_tells (fun next notes outcome => ih) merged with
                ⟨_, _, entered, maps, order, same, entered', loads, rfl⟩ | ⟨_, _, _, _, _, _, _, impossible, -⟩
              · cases same
                have loaded := Loads.cons fresh own entered' loads .nil
                rw [mergeAll_concat] at loaded
                exact ⟨_, loaded⟩
              · contradiction
            · rename_i other
              rcases mergeFrom_tells (fun next notes outcome => ih) ran with
                ⟨merged, notes', _, _, _, rfl, -⟩ |
                ⟨failure, before, inc, after, entered, maps, order, rfl, split, earlier, loads, bad⟩
              · exact absurd ran (other merged notes')
              · rcases bad with refuses | ⟨next, enters, fails⟩
                · exact .refused fresh own split earlier loads refuses
                · exact .inside fresh own split earlier loads enters fails

/-! ## The loader ends -/

theorem mergeFrom_total {baseDir : PathBytes}
    {load : PathBytes → Notes → Option (Except LoadFailure (Mapping N × Notes))}
    (total : ∀ next notes, ∃ outcome, load next notes = some outcome) (includes : List (Value N))
    (accumulated : Mapping N) (notes : Notes) :
    ∃ outcome, mergeFrom E host files baseDir load includes accumulated notes = some outcome := by
  induction includes generalizing accumulated notes with
  | nil => exact ⟨_, rfl⟩
  | cons inc includes ih =>
      rw [mergeFrom]
      split
      · exact ⟨_, rfl⟩
      · rename_i next expanded
        split
        · exact ⟨_, rfl⟩
        · rcases total next notes with ⟨outcome, loaded⟩
          rw [loaded]
          rcases outcome with failure | ⟨sub, notes'⟩
          · exact ⟨_, rfl⟩
          · exact ih _ _

/-- A depth of one more than the files not above is enough. -/
theorem loadWithIncludes_total {fuel : Nat} {path : PathBytes} {chain : List PathBytes} {notes : Notes}
    (enough : (files.countP fun entry => decide (entry.1 ∉ chain)) < fuel) :
    ∃ outcome, loadWithIncludes E host files fuel path chain notes = some outcome := by
  induction fuel generalizing path chain notes with
  | zero => exact absurd enough (Nat.not_lt_zero _)
  | succ fuel ih =>
      rw [loadWithIncludes]
      split
      · exact ⟨_, rfl⟩
      · rename_i fresh
        split
        · exact ⟨_, rfl⟩
        · rename_i raw read
          have mem := Library.Grouping.mem_of_lookup (lookup_of_readYaml read)
          have fewer : (files.countP fun entry => decide (entry.1 ∉ path :: chain)) <
              files.countP fun entry => decide (entry.1 ∉ chain) := by
            apply Library.Grouping.countP_lt_countP _ mem
            · simpa using fresh
            · simp
            · intro entry _ outside
              simp only [List.mem_cons, not_or, decide_eq_true_eq] at outside ⊢
              exact outside.2
          dsimp only
          split
          · exact ⟨_, rfl⟩
          · have inner : ∀ next notes, ∃ outcome,
                loadWithIncludes E host files fuel next (path :: chain) notes = some outcome :=
              fun next notes => ih (Nat.lt_of_lt_of_le fewer (Nat.le_of_lt_succ enough))
            rcases mergeFrom_total inner (includesOf E raw.keys) [] _ with ⟨outcome, merged⟩
            rw [mergeIncludes, merged]
            rcases outcome with failure | ⟨accumulated, notes'⟩
            · exact ⟨_, rfl⟩
            · exact ⟨_, rfl⟩

/-! ## Distinct keys of the tree -/

/-- Each file has distinct keys. -/
def WellKeyedFiles (E : SerdeYaml N) (files : Files N) : Prop :=
  ∀ entry ∈ files, WellKeyed E.toSameness (.mapping entry.2.keys)

theorem exists_of_bind_eq_ok {ε α β : Type} {first : Except ε α} {next : α → Except ε β} {result : β}
    (ran : (first >>= next) = .ok result) : ∃ middle, first = .ok middle ∧ next middle = .ok result := by
  cases first with
  | error failure => contradiction
  | ok middle => exact ⟨middle, rfl, ran⟩

theorem resolvePathKey_wellKeyed {baseDir : PathBytes} {out out' : Mapping N} {key : Text}
    (wellKeyed : WellKeyed E.toSameness (.mapping out))
    (resolved : resolvePathKey E host baseDir out key = .ok out') :
    WellKeyed E.toSameness (.mapping out') := by
  rw [resolvePathKey] at resolved
  split at resolved
  · cases resolved
    exact wellKeyed
  · split at resolved
    · cases resolved
      exact wellKeyed
    · rcases exists_of_bind_eq_ok resolved with ⟨value, listed, inserted⟩
      rcases exists_of_bind_eq_ok listed with ⟨items, -, same⟩
      cases same
      cases inserted
      exact wellKeyed.insert _ (.other nofun)

theorem resolvePathKeys_wellKeyed {baseDir : PathBytes} (keys : List Text) {out out' : Mapping N}
    (wellKeyed : WellKeyed E.toSameness (.mapping out))
    (resolved : keys.foldlM (resolvePathKey E host baseDir) out = .ok out') :
    WellKeyed E.toSameness (.mapping out') := by
  induction keys generalizing out with
  | nil =>
      cases resolved
      exact wellKeyed
  | cons key keys ih =>
      rw [List.foldlM_cons] at resolved
      rcases exists_of_bind_eq_ok resolved with ⟨middle, first, rest⟩
      exact ih (resolvePathKey_wellKeyed wellKeyed first) rest

theorem resolvePathsIn_wellKeyed {baseDir : PathBytes} {out out' : Mapping N}
    (wellKeyed : WellKeyed E.toSameness (.mapping out))
    (resolved : resolvePathsIn E host out baseDir = .ok out') :
    WellKeyed E.toSameness (.mapping out') := by
  rcases exists_of_bind_eq_ok resolved with ⟨first, keys, resolved⟩
  rcases exists_of_bind_eq_ok resolved with ⟨second, coreRoot, pluginsIo⟩
  have firstKeyed := resolvePathKeys_wellKeyed pathKeys wellKeyed keys
  have secondKeyed : WellKeyed E.toSameness (.mapping second) := by
    rw [resolveCoreRoot] at coreRoot
    split at coreRoot
    · rcases exists_of_bind_eq_ok coreRoot with ⟨abs, expanded, inserted⟩
      rcases exists_of_bind_eq_ok expanded with ⟨path, -, same⟩
      cases same
      cases inserted
      exact firstKeyed.insert _ (.other nofun)
    · cases coreRoot
      exact firstKeyed
  rw [resolvePluginsIo] at pluginsIo
  split at pluginsIo
  · rename_i entries found
    rcases exists_of_bind_eq_ok pluginsIo with ⟨inner, allowed, inserted⟩
    cases inserted
    exact secondKeyed.insert _ (resolvePathKey_wellKeyed (secondKeyed.get? found) allowed)
  · cases pluginsIo
    exact secondKeyed

theorem swapRemove_wellKeyed {keys : Mapping N} (wellKeyed : WellKeyed E.toSameness (.mapping keys))
    (key : Value N) : WellKeyed E.toSameness (.mapping (E.swapRemove key keys)) := by
  apply WellKeyed.mapping (wellKeyed.distinct.swapRemove key)
  intro entry mem
  have inside := (Sameness.swapRemove_perm key keys wellKeyed.distinct).mem_iff.mp mem
  exact wellKeyed.values entry (List.mem_filter.mp inside).1

theorem ownKeys_wellKeyed (wellKeyed : WellKeyedFiles E files) {path : PathBytes} {data : Mapping N}
    (own : ownKeys E host files path = .ok data) : WellKeyed E.toSameness (.mapping data) := by
  rcases exists_of_bind_eq_ok own with ⟨raw, read, resolved⟩
  have keyed : WellKeyed E.toSameness (.mapping raw.keys) :=
    wellKeyed (path, raw) (Library.Grouping.mem_of_lookup (lookup_of_readYaml read))
  exact resolvePathsIn_wellKeyed (swapRemove_wellKeyed keyed _) resolved

theorem mergeAll_wellKeyed {documents : List (Mapping N)}
    (wellKeyed : ∀ d ∈ documents, WellKeyed E.toSameness (.mapping d)) :
    WellKeyed E.toSameness (.mapping (mergeAll E documents)) := by
  induction documents using List.reverseRecOn with
  | nil => exact .mapping .nil nofun
  | append_singleton documents last ih =>
      rw [mergeAll_concat]
      exact (wellKeyed last (by simp)).mergeEntries
        (ih fun d mem => wellKeyed d (List.mem_append_left _ mem))

theorem Loads.wellKeyed (keyed : WellKeyedFiles E files) {chain paths : List PathBytes}
    {maps order : List (Mapping N)} (loads : Loads E host files chain paths maps order) :
    ∀ map ∈ maps, WellKeyed E.toSameness (.mapping map) := by
  induction loads with
  | nil => exact nofun
  | @cons _ _ _ _ data subs maps _ _ fresh own entered below others ihBelow ihOthers =>
      rw [List.forall_mem_cons]
      constructor
      · apply mergeAll_wellKeyed
        rw [List.forall_mem_append, List.forall_mem_singleton]
        exact ⟨ihBelow, ownKeys_wellKeyed keyed own⟩
      · exact ihOthers

/-! ## The joined sources -/

/-- What a document adds to `dependencies.source_inference`. -/
def contribution (E : SerdeYaml N) (document : Mapping N) : List (Value N) :=
  match E.get? (.string dependencies) document with
  | some (.mapping entries) => sources E entries
  | _ => []

/-- The value of `dependencies` is a mapping, if there is one. -/
def PlainDependencies (E : SerdeYaml N) (document : Mapping N) : Prop :=
  ∀ value, E.get? (.string dependencies) document = some value → ∃ entries, value = .mapping entries

/-- The documents that write `dependencies` write mappings. -/
theorem writers_of_plain {documents : List (Mapping N)} (plain : ∀ d ∈ documents, PlainDependencies E d) :
    ∃ run : List (Mapping N), writers E (.string dependencies) documents = run.map .mapping ∧
      documents.flatMap (contribution E) = run.flatMap (sources E) := by
  induction documents with
  | nil => exact ⟨[], rfl, rfl⟩
  | cons document documents ih =>
      rw [List.forall_mem_cons] at plain
      rcases ih plain.2 with ⟨run, written, joined⟩
      cases found : E.get? (.string dependencies) document with
      | none =>
          have none : contribution E document = [] := by rw [contribution, found]
          have same : writers E (.string dependencies) (document :: documents) =
              writers E (.string dependencies) documents := by
            rw [writers, List.filterMap_cons, found]
            rfl
          exact ⟨run, same.trans written, by rw [List.flatMap_cons, none, joined, List.nil_append]⟩
      | some value =>
          rcases plain.1 value found with ⟨entries, rfl⟩
          have own : contribution E document = sources E entries := by rw [contribution, found]
          have same : writers E (.string dependencies) (document :: documents) =
              .mapping entries :: writers E (.string dependencies) documents := by
            rw [writers, List.filterMap_cons, found]
            rfl
          exact ⟨entries :: run, by rw [same, written]; rfl, by rw [List.flatMap_cons, own, joined]; rfl⟩

/-- The merge of documents adds what they add, one behind the other. -/
theorem contribution_mergeAll {documents : List (Mapping N)}
    (wellKeyed : ∀ d ∈ documents, WellKeyed E.toSameness (.mapping d))
    (plain : ∀ d ∈ documents, PlainDependencies E d) :
    contribution E (mergeAll E documents) = documents.flatMap (contribution E) ∧
      PlainDependencies E (mergeAll E documents) := by
  rcases writers_of_plain plain with ⟨run, written, joined⟩
  have laws := mergeAll_laws wellKeyed
  by_cases empty : run = []
  · subst empty
    have absent := laws.absent (.string dependencies) written
    constructor
    · rw [contribution, absent, joined]
      rfl
    · intro value found
      rw [absent] at found
      contradiction
  · rcases laws.joined (.string dependencies) [] run written empty nofun rfl with
      ⟨entries, found, sources_eq, -⟩
    constructor
    · rw [contribution, found, joined]
      exact sources_eq
    · intro value found'
      cases found.symm.trans found'
      exact ⟨entries, rfl⟩

/-- The merged lists are those of all files, in the order of loading. -/
theorem Loads.contribution_eq (keyed : WellKeyedFiles E files) {chain paths : List PathBytes}
    {maps order : List (Mapping N)} (loads : Loads E host files chain paths maps order)
    (plain : ∀ d ∈ order, PlainDependencies E d) :
    maps.flatMap (contribution E) = order.flatMap (contribution E) ∧
      ∀ map ∈ maps, PlainDependencies E map := by
  induction loads with
  | nil => exact ⟨rfl, nofun⟩
  | @cons _ _ _ _ data subs maps inner order fresh own entered below others ihBelow ihOthers =>
      simp only [List.mem_append, List.mem_cons] at plain
      have ownPlain := plain data (.inr (.inl rfl))
      rcases ihBelow (fun d mem => plain d (.inl mem)) with ⟨joinedBelow, plainBelow⟩
      rcases ihOthers (fun d mem => plain d (.inr (.inr mem))) with ⟨joinedOthers, plainOthers⟩
      have documentsKeyed : ∀ d ∈ subs ++ [data], WellKeyed E.toSameness (.mapping d) := by
        rw [List.forall_mem_append, List.forall_mem_singleton]
        exact ⟨below.wellKeyed keyed, ownKeys_wellKeyed keyed own⟩
      have documentsPlain : ∀ d ∈ subs ++ [data], PlainDependencies E d := by
        rw [List.forall_mem_append, List.forall_mem_singleton]
        exact ⟨plainBelow, ownPlain⟩
      rcases contribution_mergeAll documentsKeyed documentsPlain with ⟨merged, mergedPlain⟩
      constructor
      · rw [List.flatMap_cons, merged, List.flatMap_append, joinedBelow, joinedOthers,
          List.flatMap_append, List.flatMap_cons]
        simp
      · rw [List.forall_mem_cons]
        exact ⟨mergedPlain, plainOthers⟩

/-! ## What the loader promises -/

/-- What the outcome for a start file is. -/
structure LoadLaws (E : SerdeYaml N) (host : Host N) (files : Files N) (start : PathBytes)
    (outcome : Except LoadFailure (Mapping N × Notes)) : Prop where
  loads_iff : (∃ merged notes, outcome = .ok (merged, notes)) ↔ Includable E host files start
  fails_iff : ∀ failure, outcome = .error failure ↔ Fails E host files [] start failure
  returns_iff : ∀ merged, (∃ notes, outcome = .ok (merged, notes)) ↔
    ∃ order, Loads E host files [] [start] [merged] order
  joined : ∀ merged order, Loads E host files [] [start] [merged] order →
    (∀ d ∈ order, PlainDependencies E d) → contribution E merged = order.flatMap (contribution E)

/-! ## Examples -/

def Value.isString : Value N → Bool
  | .string _ => true
  | _ => false

/-- The keys of the examples are strings. -/
def stringKeys : SerdeYaml Nat where
  same a b := a.isString = b.isString && a.asStr = b.asStr
  refl a := by simp
  symm alike := by
    simp only [Bool.and_eq_true, decide_eq_true_eq] at alike ⊢
    exact ⟨alike.1.symm, alike.2.symm⟩
  trans first second := by
    simp only [Bool.and_eq_true, decide_eq_true_eq] at first second ⊢
    exact ⟨first.1.trans second.1, first.2.trans second.2⟩
  string_same s key := by
    cases key <;> simp [Value.isString, Value.asStr, eq_comm]
  asStr_same alike := by
    simp only [Bool.and_eq_true, decide_eq_true_eq] at alike
    exact alike.2

/-- A machine without users. -/
def bareHost : Host Nat where
  home := none
  passwd := none
  uid := none
  currentDir := [slash]
  texts := ⟨fun n => (toString n).toList, fun s => '"' :: s ++ ['"']⟩

def key (text : Text) (value : Value Nat) : Value Nat × Value Nat :=
  (.string text, value)

/-- `source_inference` with one number, inside `dependencies`. -/
def source (n : Nat) : Value Nat × Value Nat :=
  key dependencies (.mapping [key sourceInference (.sequence [.number n])])

def file (keys : Mapping Nat) : ConfigFile Nat :=
  ⟨keys, []⟩

def included (names : List Text) : Value Nat × Value Nat :=
  key "includes".toList (.sequence (names.map .string))

/-- `/a` includes `/b` and `/c`, which both include `/d`. -/
def diamond : Files Nat :=
  [([47, 97], file [included [['b'], ['c']], source 1]), ([47, 98], file [included [['d']]]),
    ([47, 99], file [included [['d']], source 3]), ([47, 100], file [source 4])]

/-- `/a` includes `/b`, and both have `dependencies` under another key. -/
def nestedDependencies : Files Nat :=
  [([47, 97], file [included [['b']], key ['x'] (.mapping [source 1])]),
    ([47, 98], file [key ['x'] (.mapping [source 2])])]

/-- `/a` includes `/b` and has `dependencies` without a value. -/
def nullDependencies : Files Nat :=
  [([47, 97], file [included [['b']], key dependencies .null]), ([47, 98], file [source 2])]

/-- The paths of `/a` name a user. -/
def unknownUser : Files Nat :=
  [([47, 97], file [key "paths".toList (.string ['~', 'u'])])]

theorem included_wellKeyed (names : List Text) :
    WellKeyed stringKeys.toSameness (included names).2 :=
  .other nofun

theorem source_wellKeyed (n : Nat) : WellKeyed stringKeys.toSameness (source n).2 := by
  apply WellKeyed.mapping (List.pairwise_singleton _ _)
  rw [List.forall_mem_singleton]
  exact .other nofun

theorem diamond_wellKeyed : WellKeyedFiles stringKeys diamond := by
  have both : ∀ names n, WellKeyed stringKeys.toSameness (.mapping [included names, source n]) := by
    intro names n
    apply WellKeyed.mapping
    · rw [Sameness.Distinct, List.pairwise_pair]
      intro alike
      have same : (Value.string dependencies : Value Nat) = .string "includes".toList :=
        (stringKeys.string_same _ _).mp alike
      exact absurd (Value.string.inj same) (by decide)
    · simp only [List.forall_mem_cons]
      exact ⟨included_wellKeyed names, source_wellKeyed n, nofun⟩
  have onlyIncluded : ∀ names, WellKeyed stringKeys.toSameness (.mapping [included names]) := by
    intro names
    apply WellKeyed.mapping (List.pairwise_singleton _ _)
    rw [List.forall_mem_singleton]
    exact included_wellKeyed names
  have onlySource : ∀ n, WellKeyed stringKeys.toSameness (.mapping [source n]) := by
    intro n
    apply WellKeyed.mapping (List.pairwise_singleton _ _)
    rw [List.forall_mem_singleton]
    exact source_wellKeyed n
  rw [WellKeyedFiles, diamond]
  simp only [List.forall_mem_cons]
  exact ⟨both _ 1, onlyIncluded _, both _ 3, onlySource 4, nofun⟩

/-! ## The laws of loading -/

/-- The loader ends.  It fails with the first failure of the tree, and there is one exactly where some
file cannot be read or includes itself; otherwise it merges the tree, key by key, and joins the lists
of `dependencies.source_inference` in the order of loading. -/
theorem loadWithIncludes_laws (E : SerdeYaml N) (host : Host N) (files : Files N)
    (keyed : WellKeyedFiles E files) (start : PathBytes) (notes : Notes) (fuel : Nat)
    (enough : files.length < fuel) :
    (∃ outcome, loadWithIncludes E host files fuel start [] notes = some outcome ∧
      LoadLaws E host files start outcome) ∧
    ∀ documents : List (Mapping N), (∀ d ∈ documents, WellKeyed E.toSameness (.mapping d)) →
      MergeLaws E documents (mergeAll E documents) := by
  have all : (files.countP fun entry => decide (entry.1 ∉ ([] : List PathBytes))) < fuel :=
    Nat.lt_of_le_of_lt List.countP_le_length enough
  have total : ∃ outcome, loadWithIncludes E host files fuel start [] notes = some outcome :=
    loadWithIncludes_total all
  rcases total with ⟨outcome, ran⟩
  have tells := loadWithIncludes_tells ran
  have joined : ∀ merged order, Loads E host files [] [start] [merged] order →
      (∀ d ∈ order, PlainDependencies E d) →
      contribution E merged = order.flatMap (contribution E) := by
    intro merged order loads plain
    have both := (loads.contribution_eq keyed plain).1
    rw [List.flatMap_singleton] at both
    exact both
  constructor
  · apply Exists.intro outcome
    apply And.intro ran
    rcases outcome with failure | ⟨merged, notes'⟩
    · have fails : Fails E host files [] start failure := tells
      have noLoads := Loads.not_fails fails
      constructor
      · constructor
        · rintro ⟨_, _, impossible⟩
          contradiction
        · intro includable
          exact absurd includable (fails.not_includable nofun)
      · intro failure'
        constructor
        · rintro ⟨⟩
          exact fails
        · intro fails'
          rw [fails.unique fails']
      · intro merged
        constructor
        · rintro ⟨_, impossible⟩
          contradiction
        · rintro ⟨order, loads⟩
          exact absurd loads (noLoads merged order)
      · exact joined
    · rcases tells with ⟨order, loads⟩
      constructor
      · exact ⟨fun _ => loads.includable, fun _ => ⟨merged, notes', rfl⟩⟩
      · intro failure
        constructor
        · intro impossible
          contradiction
        · intro fails
          exact absurd loads (Loads.not_fails fails merged order)
      · intro merged'
        constructor
        · rintro ⟨_, ⟨⟩⟩
          exact ⟨order, loads⟩
        · rintro ⟨order', loads'⟩
          cases (loads.unique loads').1
          exact ⟨notes', rfl⟩
      · exact joined
  · exact fun documents wellKeyed => mergeAll_laws wellKeyed

/-- The file that two others include is no failure. -/
theorem loadWithIncludes_laws_diamond :
    Includable stringKeys bareHost diamond [47, 97] := by
  rcases (loadWithIncludes_laws stringKeys bareHost diamond diamond_wellKeyed [47, 97] ⟨false, []⟩ 5
    (by decide)).1 with ⟨outcome, ran, laws⟩
  apply laws.loads_iff.mp
  exact ⟨_, _, (Option.some.inj ran).symm⟩

example : loadWithIncludes stringKeys bareHost diamond 5 [47, 97] [] ⟨false, []⟩ =
    some (.ok ([key dependencies (.mapping [key sourceInference
      (.sequence [.number 4, .number 4, .number 3, .number 1])])], ⟨true, []⟩)) := by
  rfl

/-- The lists of `dependencies` below another key are joined as well, a file without a value for
`dependencies` drops those before it, and an unknown user is a failure. -/
theorem not_loadWithIncludes_laws :
    loadWithIncludes stringKeys bareHost nestedDependencies 3 [47, 97] [] ⟨false, []⟩ =
      some (.ok ([key ['x'] (.mapping [key dependencies (.mapping [key sourceInference
        (.sequence [.number 2, .number 1])])])], ⟨true, []⟩)) ∧
    loadWithIncludes stringKeys bareHost nullDependencies 3 [47, 97] [] ⟨false, []⟩ =
      some (.ok ([key dependencies .null], ⟨true, []⟩)) ∧
    loadWithIncludes stringKeys bareHost unknownUser 3 [47, 97] [] ⟨false, []⟩ =
      some (.error ⟨"user u doesn't exist".toList, 1⟩) :=
  ⟨rfl, rfl, rfl⟩

end Rigor.Cli.Config
