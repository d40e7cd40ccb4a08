import Mathlib.Logic.Relation
import Rigor.Cli.Config.Includes
import Rigor.Cli.Config.RelativePath

/-!
# The tree of included files

What loading a configuration means: the files a file includes, when they all load, which failure comes
first in depth-first order, and the order in which the files are merged.
-/

namespace Rigor.Cli.Config

open Rigor.Library.Entries Rigor.Rust Relation

/-! ## The spelling of a path -/

theorem expandPath_eq {path : PathBytes} (absolute : isAbsolute path = true)
    (currentDir dir : PathBytes) : expandPath currentDir path = lexicalAbsolute path dir := by
  have split : ∃ parts, components path = .rootDir :: parts ∧ .rootDir ∉ parts := by
    rw [isAbsolute, decide_eq_true_eq] at absolute
    rcases List.head?_eq_some_iff.mp absolute with ⟨tail, rfl⟩
    have pieces : (slash :: tail).splitOn slash = [] :: tail.splitOn slash :=
      List.splitOn_append_cons_self [] tail
    rcases List.exists_cons_of_ne_nil (List.splitOn_ne_nil slash tail) with ⟨first, rest, more⟩
    have read : components (slash :: tail) =
        .rootDir :: (tail.splitOn slash).filterMap parseSegment := by
      rw [components, pieces, more]
      rfl
    apply Exists.intro _
    apply And.intro read
    intro mem
    rcases List.mem_filterMap.mp mem with ⟨segment, -, parsed⟩
    rw [parseSegment] at parsed
    split at parsed
    · contradiction
    · split at parsed
      · cases parsed
      · cases parsed
  rcases split with ⟨parts, split, noRoot⟩
  have agree : ∀ out, parts.foldl expandComponent out = parts.foldl foldComponent out := by
    intro out
    apply List.foldl_ext
    intro out part mem
    cases part with
    | rootDir => exact absurd mem noRoot
    | _ => rfl
  simp only [expandPath, lexicalAbsolute, absolute, Bool.or_true, if_true, split, List.foldl_cons, agree]
  rfl

theorem isAbsolute_pop {path : PathBytes} (folded : Folded path) : isAbsolute (pop path) = true := by
  rcases folded_iff.mp folded with ⟨names, plain, rfl⟩
  rw [pop_render plain]
  rfl

theorem isAbsolute_join {base : PathBytes} (absolute : isAbsolute base = true) (path : PathBytes) :
    isAbsolute (join base path) = true := by
  rw [isAbsolute, decide_eq_true_eq] at absolute
  rcases List.head?_eq_some_iff.mp absolute with ⟨tail, rfl⟩
  rw [join, push]
  split
  · assumption
  · split <;> rfl

variable {N : Type}

/-- An entry of an expanded file names an expanded path. -/
theorem folded_of_expandConfigEntry {host : Host N} {entry : Text} {path next : PathBytes}
    (folded : Folded path) (expanded : expandConfigEntry host entry (pop path) = .ok next) :
    Folded next := by
  rw [expandConfigEntry] at expanded
  cases tilde : expandTildeHead host entry with
  | error failure =>
      rw [tilde] at expanded
      contradiction
  | ok text =>
      rw [tilde] at expanded
      cases expanded
      have absolute : isAbsolute (if isAbsolute (Text.bytes text) = true then Text.bytes text
          else join (pop path) (Text.bytes text)) = true := by
        split
        · assumption
        · exact isAbsolute_join (isAbsolute_pop folded) _
      exact ⟨_, [slash], expandPath_eq absolute host.currentDir [slash]⟩

section Tree

variable (E : SerdeYaml N) (host : Host N) (files : Files N)

/-- A file's own keys: without `includes`, and with its paths resolved. -/
def ownKeys (path : PathBytes) : Except LoadFailure (Mapping N) := do
  let raw ← readYaml files path
  resolvePathsIn E host (E.swapRemove (.string "includes".toList) raw.keys) (pop path)

/-- The entries of a file's `includes`. -/
def includesAt (path : PathBytes) : List (Value N) :=
  match files.lookup path with
  | some raw => includesOf E raw.keys
  | none => []

/-- An entry of a file names another file, which exists. -/
def Enters (path : PathBytes) (inc : Value N) (next : PathBytes) : Prop :=
  expandConfigEntry host (rubyToS host.texts inc) (pop path) = .ok next ∧
    (files.lookup next).isSome = true

/-- An entry that names no file: the user of its `~` is unknown, or the file does not exist. -/
def Refuses (path : PathBytes) (inc : Value N) (failure : LoadFailure) : Prop :=
  expandConfigEntry host (rubyToS host.texts inc) (pop path) = .error failure ∨
    ∃ next, expandConfigEntry host (rubyToS host.texts inc) (pop path) = .ok next ∧
      files.lookup next = none ∧ failure = includeNotFound host inc (pop path)

def IncludeEdge (path next : PathBytes) : Prop :=
  ∃ inc ∈ includesAt E files path, Enters host files path inc next

/-- The file can be read, and each of its entries names a file. -/
def Readable (path : PathBytes) : Prop :=
  (∃ data, ownKeys E host files path = .ok data) ∧
    ∀ inc ∈ includesAt E files path, ∃ next, Enters host files path inc next

/-- Everything the file includes is readable, and no file includes itself. -/
def Includable (start : PathBytes) : Prop :=
  ∀ path, ReflTransGen (IncludeEdge E host files) start path →
    Readable E host files path ∧ ¬ TransGen (IncludeEdge E host files) path path

/-- Below some files, other files load to mappings: each is the merge of those it includes and its own
keys.  The last list holds the own keys of all files, one inside the other, in the order they are
merged. -/
inductive Loads : List PathBytes → List PathBytes → List (Mapping N) → List (Mapping N) → Prop where
  | nil {chain : List PathBytes} : Loads chain [] [] []
  | cons {chain paths included : List PathBytes} {path : PathBytes} {data : Mapping N}
      {subs maps inner order : List (Mapping N)} (fresh : path ∉ chain)
      (own : ownKeys E host files path = .ok data)
      (entered : List.Forall₂ (Enters host files path) (includesAt E files path) included)
      (below : Loads (path :: chain) included subs inner) (others : Loads chain paths maps order) :
      Loads chain (path :: paths) (mergeAll E (subs ++ [data]) :: maps) (inner ++ data :: order)

/-- The first failure, in depth-first order, of a file below some others. -/
inductive Fails : List PathBytes → PathBytes → LoadFailure → Prop where
  | circular {chain : List PathBytes} {path : PathBytes} (again : path ∈ chain) :
      Fails chain path (circularInclude path)
  | unreadable {chain : List PathBytes} {path : PathBytes} {failure : LoadFailure}
      (fresh : path ∉ chain) (own : ownKeys E host files path = .error failure) :
      Fails chain path failure
  | refused {chain entered : List PathBytes} {path : PathBytes} {failure : LoadFailure}
      {data : Mapping N} {before after : List (Value N)} {inc : Value N}
      {maps order : List (Mapping N)} (fresh : path ∉ chain)
      (own : ownKeys E host files path = .ok data)
      (split : includesAt E files path = before ++ inc :: after)
      (earlier : List.Forall₂ (Enters host files path) before entered)
      (loaded : Loads E host files (path :: chain) entered maps order)
      (refuses : Refuses host files path inc failure) : Fails chain path failure
  | inside {chain entered : List PathBytes} {path next : PathBytes} {failure : LoadFailure}
      {data : Mapping N} {before after : List (Value N)} {inc : Value N}
      {maps order : List (Mapping N)} (fresh : path ∉ chain)
      (own : ownKeys E host files path = .ok data)
      (split : includesAt E files path = before ++ inc :: after)
      (earlier : List.Forall₂ (Enters host files path) before entered)
      (loaded : Loads E host files (path :: chain) entered maps order)
      (enters : Enters host files path inc next) (fails : Fails (path :: chain) next failure) :
      Fails chain path failure

end Tree

variable {E : SerdeYaml N} {host : Host N} {files : Files N}

theorem mem_of_split {α : Type} {items before after : List α} {item : α}
    (split : items = before ++ item :: after) : item ∈ items := by
  rw [split]
  exact List.mem_append_right _ List.mem_cons_self

/-- A list has one first item without a property. -/
theorem split_unique {α : Type} {p : α → Prop} {before after before' after' : List α} {item item' : α}
    (same : before ++ item :: after = before' ++ item' :: after') (all : ∀ a ∈ before, p a)
    (none : ¬ p item) (all' : ∀ a ∈ before', p a) (none' : ¬ p item') : item = item' := by
  induction before generalizing before' with
  | nil =>
      cases before' with
      | nil => exact (List.cons.inj same).1
      | cons first rest =>
          cases (List.cons.inj same).1
          exact absurd (all' _ List.mem_cons_self) none
  | cons first rest ih =>
      rw [List.forall_mem_cons] at all
      cases before' with
      | nil =>
          cases (List.cons.inj same).1
          exact absurd all.1 none'
      | cons first' rest' =>
          rw [List.forall_mem_cons] at all'
          exact ih (List.cons.inj same).2 all.2 all'.2

theorem Enters.unique {path next next' : PathBytes} {inc : Value N}
    (enters : Enters host files path inc next) (enters' : Enters host files path inc next') :
    next = next' := by
  have same := enters.1.symm.trans enters'.1
  cases same
  rfl

theorem Enters.not_refuses {path next : PathBytes} {inc : Value N} {failure : LoadFailure}
    (enters : Enters host files path inc next) : ¬ Refuses host files path inc failure := by
  rintro (expanded | ⟨next', expanded, absent, -⟩)
  · cases enters.1.symm.trans expanded
  · cases enters.1.symm.trans expanded
    have loaded := enters.2
    rw [absent] at loaded
    contradiction

theorem Refuses.unique {path : PathBytes} {inc : Value N} {failure failure' : LoadFailure}
    (refuses : Refuses host files path inc failure)
    (refuses' : Refuses host files path inc failure') : failure = failure' := by
  rcases refuses with expanded | ⟨next, expanded, -, rfl⟩
  · rcases refuses' with expanded' | ⟨next', expanded', -, -⟩
    · cases expanded.symm.trans expanded'
      rfl
    · cases expanded.symm.trans expanded'
  · rcases refuses' with expanded' | ⟨next', expanded', -, rfl⟩
    · cases expanded.symm.trans expanded'
    · rfl

theorem forall₂_enters_unique {path : PathBytes} {incs : List (Value N)} {nexts nexts' : List PathBytes}
    (entered : List.Forall₂ (Enters host files path) incs nexts)
    (entered' : List.Forall₂ (Enters host files path) incs nexts') : nexts = nexts' := by
  induction entered generalizing nexts' with
  | nil =>
      cases entered'
      rfl
  | cons enters _ ih =>
      cases entered' with
      | cons enters' rest => rw [enters.unique enters', ih rest]

theorem exists_entered {path : PathBytes} {incs : List (Value N)} {nexts : List PathBytes} {inc : Value N}
    (entered : List.Forall₂ (Enters host files path) incs nexts) (mem : inc ∈ incs) :
    ∃ next ∈ nexts, Enters host files path inc next := by
  induction entered with
  | nil => contradiction
  | cons enters _ ih =>
      rcases List.mem_cons.mp mem with rfl | mem
      · exact ⟨_, List.mem_cons_self, enters⟩
      · rcases ih mem with ⟨next, inside, enters⟩
        exact ⟨next, List.mem_cons_of_mem _ inside, enters⟩

namespace Loads

variable {chain paths : List PathBytes} {path : PathBytes} {maps order : List (Mapping N)}

theorem unique {maps' order' : List (Mapping N)} (loads : Loads E host files chain paths maps order)
    (loads' : Loads E host files chain paths maps' order') : maps = maps' ∧ order = order' := by
  induction loads generalizing maps' order' with
  | nil =>
      cases loads'
      exact ⟨rfl, rfl⟩
  | cons fresh own entered below others ihBelow ihOthers =>
      cases loads' with
      | cons fresh' own' entered' below' others' =>
          cases own.symm.trans own'
          cases forall₂_enters_unique entered entered'
          rcases ihBelow below' with ⟨rfl, rfl⟩
          rcases ihOthers others' with ⟨rfl, rfl⟩
          exact ⟨rfl, rfl⟩

theorem of_mem (loads : Loads E host files chain paths maps order) (mem : path ∈ paths) :
    ∃ map order', Loads E host files chain [path] [map] order' := by
  induction loads with
  | nil => contradiction
  | cons fresh own entered below others ihBelow ihOthers =>
      rcases List.mem_cons.mp mem with rfl | mem
      · exact ⟨_, _, .cons fresh own entered below .nil⟩
      · exact ihOthers mem

theorem append_single {map : Mapping N} {first : List (Mapping N)}
    (single : Loads E host files chain [path] [map] first)
    (loads : Loads E host files chain paths maps order) :
    Loads E host files chain (path :: paths) (map :: maps) (first ++ order) := by
  cases single with
  | cons fresh own entered below others =>
      cases others
      rw [List.append_assoc]
      exact .cons fresh own entered below loads

/-- A file that loads has no failure. -/
theorem not_fails {failure : LoadFailure} (fails : Fails E host files chain path failure) :
    ∀ map order, ¬ Loads E host files chain [path] [map] order := by
  induction fails with
  | circular again =>
      rintro map order (_ | ⟨fresh, -⟩)
      exact fresh again
  | unreadable fresh own =>
      rintro map order loads
      cases loads with
      | cons _ own' => cases own.symm.trans own'
  | refused fresh own split earlier loaded refuses =>
      rintro map order loads
      cases loads with
      | cons _ _ entered =>
          rw [split] at entered
          rcases exists_entered entered (List.mem_append_right _ List.mem_cons_self) with ⟨next, -, enters⟩
          exact enters.not_refuses refuses
  | inside fresh own split earlier loaded enters fails ih =>
      rintro map order loads
      cases loads with
      | cons _ _ entered below =>
          rw [split] at entered
          rcases exists_entered entered (List.mem_append_right _ List.mem_cons_self) with ⟨next, mem, enters'⟩
          cases enters.unique enters'
          rcases below.of_mem mem with ⟨map, order, loads⟩
          exact ih map order loads

/-- No file that loads includes itself. -/
theorem acc (loads : Loads E host files chain paths maps order) (mem : path ∈ paths) :
    Acc (flip (IncludeEdge E host files)) path := by
  induction loads generalizing path with
  | nil => contradiction
  | cons fresh own entered below others ihBelow ihOthers =>
      rcases List.mem_cons.mp mem with rfl | mem
      · constructor
        rintro next ⟨inc, inside, enters⟩
        rcases exists_entered entered inside with ⟨next', mem, enters'⟩
        cases enters.unique enters'
        exact ihBelow mem
      · exact ihOthers mem

theorem readable {map : Mapping N} (loads : Loads E host files chain [path] [map] order) :
    Readable E host files path := by
  cases loads with
  | cons fresh own entered below others =>
      constructor
      · exact ⟨_, own⟩
      · intro inc mem
        rcases exists_entered entered mem with ⟨next, -, enters⟩
        exact ⟨next, enters⟩

theorem of_edge {map : Mapping N} {next : PathBytes}
    (loads : Loads E host files chain [path] [map] order) (edge : IncludeEdge E host files path next) :
    ∃ map' order', Loads E host files (path :: chain) [next] [map'] order' := by
  cases loads with
  | cons fresh own entered below others =>
      rcases edge with ⟨inc, mem, enters⟩
      rcases exists_entered entered mem with ⟨next', inside, enters'⟩
      cases enters.unique enters'
      exact below.of_mem inside

/-- A file that loads is includable. -/
theorem includable {map : Mapping N} (loads : Loads E host files chain [path] [map] order) :
    Includable E host files path := by
  intro other reached
  have loaded : ∃ chain' map' order', Loads E host files chain' [other] [map'] order' := by
    induction reached with
    | refl => exact ⟨chain, map, order, loads⟩
    | tail _ edge ih =>
        rcases ih with ⟨chain', map', order', loads'⟩
        rcases loads'.of_edge edge with ⟨map'', order'', loads''⟩
        exact ⟨_, map'', order'', loads''⟩
  rcases loaded with ⟨chain', map', order', loads'⟩
  constructor
  · exact loads'.readable
  · have acc := loads'.acc (List.mem_singleton_self other)
    clear loads' reached
    induction acc with
    | intro x _ ih =>
        intro loop
        rcases TransGen.head'_iff.mp loop with ⟨y, edge, back⟩
        exact ih y edge (TransGen.tail' back edge)

end Loads

namespace Fails

variable {chain : List PathBytes} {path : PathBytes} {failure failure' : LoadFailure}

/-- A file with a failure is not includable. -/
theorem not_includable (fails : Fails E host files chain path failure)
    (above : ∀ other ∈ chain, TransGen (IncludeEdge E host files) other path) :
    ¬ Includable E host files path := by
  induction fails with
  | circular again => exact fun includable => (includable _ .refl).2 (above _ again)
  | unreadable fresh own =>
      intro includable
      rcases (includable _ .refl).1.1 with ⟨data, own'⟩
      cases own.symm.trans own'
  | refused fresh own split earlier loaded refuses =>
      intro includable
      rcases (includable _ .refl).1.2 _ (mem_of_split split) with ⟨next, enters⟩
      exact enters.not_refuses refuses
  | @inside chain entered path next failure data before after inc maps order fresh own split earlier
      loaded enters fails ih =>
      intro includable
      have edge : IncludeEdge E host files path next := ⟨inc, mem_of_split split, enters⟩
      have above' : ∀ other ∈ path :: chain, TransGen (IncludeEdge E host files) other next := by
        intro other mem
        rcases List.mem_cons.mp mem with rfl | mem
        · exact .single edge
        · exact (above other mem).tail edge
      exact ih above' fun other reached => includable other (.head edge reached)

/-- An entry whose file loads below. -/
theorem loaded_before {entered : List PathBytes} {before : List (Value N)} {maps order : List (Mapping N)}
    (earlier : List.Forall₂ (Enters host files path) before entered)
    (loaded : Loads E host files chain entered maps order) :
    ∀ inc ∈ before, ∃ next, Enters host files path inc next ∧
      ∃ map order', Loads E host files chain [next] [map] order' := by
  intro inc mem
  rcases exists_entered earlier mem with ⟨next, inside, enters⟩
  exact ⟨next, enters, loaded.of_mem inside⟩

/-- An entry that is refused, or whose file fails, does not load. -/
theorem not_loaded {inc : Value N} (bad : Refuses host files path inc failure ∨
      ∃ next, Enters host files path inc next ∧ Fails E host files chain next failure) :
    ¬ ∃ next, Enters host files path inc next ∧
      ∃ map order, Loads E host files chain [next] [map] order := by
  rintro ⟨next, enters, map, order, loads⟩
  rcases bad with refuses | ⟨next', enters', fails⟩
  · exact enters.not_refuses refuses
  · cases enters.unique enters'
    exact Loads.not_fails fails map order loads

theorem unique (fails : Fails E host files chain path failure)
    (fails' : Fails E host files chain path failure') : failure = failure' := by
  induction fails generalizing failure' with
  | circular again =>
      cases fails' with
      | circular => rfl
      | unreadable fresh => exact absurd again fresh
      | refused fresh => exact absurd again fresh
      | inside fresh => exact absurd again fresh
  | unreadable fresh own =>
      cases fails' with
      | circular again => exact absurd again fresh
      | unreadable _ own' =>
          cases own.symm.trans own'
          rfl
      | refused _ own' => cases own.symm.trans own'
      | inside _ own' => cases own.symm.trans own'
  | refused fresh own split earlier loaded refuses =>
      cases fails' with
      | circular again => exact absurd again fresh
      | unreadable _ own' => cases own.symm.trans own'
      | refused _ _ split' earlier' loaded' refuses' =>
          cases split_unique (split.symm.trans split') (loaded_before earlier loaded)
            (not_loaded (.inl refuses)) (loaded_before earlier' loaded') (not_loaded (.inl refuses'))
          exact Refuses.unique refuses refuses'
      | inside _ _ split' earlier' loaded' enters' fails' =>
          cases split_unique (split.symm.trans split') (loaded_before earlier loaded)
            (not_loaded (.inl refuses)) (loaded_before earlier' loaded')
            (not_loaded (.inr ⟨_, enters', fails'⟩))
          exact absurd refuses enters'.not_refuses
  | inside fresh own split earlier loaded enters fails ih =>
      cases fails' with
      | circular again => exact absurd again fresh
      | unreadable _ own' => cases own.symm.trans own'
      | refused _ _ split' earlier' loaded' refuses' =>
          cases split_unique (split.symm.trans split') (loaded_before earlier loaded)
            (not_loaded (.inr ⟨_, enters, fails⟩)) (loaded_before earlier' loaded')
            (not_loaded (.inl refuses'))
          exact absurd refuses' enters.not_refuses
      | inside _ _ split' earlier' loaded' enters' fails' =>
          cases split_unique (split.symm.trans split') (loaded_before earlier loaded)
            (not_loaded (.inr ⟨_, enters, fails⟩)) (loaded_before earlier' loaded')
            (not_loaded (.inr ⟨_, enters', fails'⟩))
          cases enters.unique enters'
          exact ih fails'

end Fails

end Rigor.Cli.Config
