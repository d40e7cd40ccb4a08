import Mathlib.Data.List.Dedup
import Mathlib.Data.List.Sort
import Rigor.Text

/-!
# The project overlay

The language server holds the harvest of every project file.  A full build walks the
configured roots; after a batch of file events the held table is patched in place
where that is decidable, and built anew otherwise.  A batch has to leave what a full
build on the new disk would give.
-/

namespace Rigor.Cli.Lsp

/-- The components of an absolute path. -/
abbrev Path := List Text

/-- The path as a string. -/
def Path.spelling (path : Path) : Text :=
  path.flatMap fun name => '/' :: name

/-- A file system as the server meets it: the canonical path of every spelling, of files
and directories, and the content of the readable files under their canonical paths. -/
structure Disk (Content : Type) where
  links : List (Path × Path)
  files : List (Path × Content)
  resolved : ∀ path target, links.lookup path = some target → links.lookup target = some target

/-- What the configuration says about discovery. -/
structure Config where
  paths : List Path
  excludes : Path → Bool

namespace Disk

variable {Content : Type}

def canonicalize (disk : Disk Content) (path : Path) : Option Path :=
  disk.links.lookup path

/-- `Path::exists`. -/
def pathExists (disk : Disk Content) (path : Path) : Bool :=
  (disk.canonicalize path).isSome

/-- `fs::read`. -/
def read (disk : Disk Content) (path : Path) : Option Content :=
  (disk.canonicalize path).bind fun target => disk.files.lookup target

/-- The spellings of a disk, each once. -/
def spellings (disk : Disk Content) : List Path :=
  (disk.links.map Prod.fst).dedup

/-- The canonical path and the content behind a spelling. -/
def stat (disk : Disk Content) (path : Path) : Option (Path × Option Content) :=
  (disk.canonicalize path).map fun target => (target, disk.files.lookup target)

end Disk

/-- The name ends in `.rb`. -/
def isRuby (path : Path) : Bool :=
  path.getLast?.any fun name => ['.', 'r', 'b'].isSuffixOf name

def isHidden (name : Text) : Bool :=
  name.head? = some '.'

section Discovery

variable {Content : Type}

/-- No directory between `dir` and the file is a symbolic link. -/
def walkable (disk : Disk Content) (dir path : Path) : Bool :=
  (disk.canonicalize dir).any fun base =>
    disk.canonicalize path.dropLast = some (base ++ path.dropLast.drop dir.length)

/-- The Ruby files below a directory.  The walk skips hidden entries and does not follow
links to directories. -/
def collectRbFiles (disk : Disk Content) (dir : Path) : List Path :=
  disk.spellings.filter fun path =>
    dir.isPrefixOf path && !(path.drop dir.length).any isHidden && walkable disk dir path &&
      isRuby path && (disk.read path).isSome

/-- A root that is a file is kept verbatim; the hits of a directory are sorted and filtered. -/
def expandCheckPathsExcluding (disk : Disk Content) (excludes : Path → Bool) (root : Path) :
    List Path :=
  if (disk.read root).isSome then if isRuby root then [root] else []
  else
    ((collectRbFiles disk root).insertionSort fun a b =>
      (Text.cmp a.spelling b.spelling).isLE = true).filter fun path => !excludes path

def projectFiles (cfg : Config) (disk : Disk Content) : List Path :=
  cfg.paths.flatMap (expandCheckPathsExcluding disk cfg.excludes)

end Discovery

/-- A held file: its canonical path with its syntax tree and harvest. -/
abbrev HeldFile (Pair : Type) := Path × Pair

section Overlay

variable {Content Pair : Type}

/-- The syntax tree and harvest of one file.  They depend on its content and, as the key of
the lowering, on its canonical path; a file that is not analysable has none. -/
def heldPair (harvest : Path → Content → Option Pair) (disk : Disk Content) (path : Path) :
    Option Pair := do
  let content ← disk.read path
  let key ← disk.canonicalize path
  harvest key content

/-- The files of a full build. -/
def buildOverlay (harvest : Path → Content → Option Pair) (cfg : Config) (disk : Disk Content) :
    List (HeldFile Pair) :=
  (projectFiles cfg disk).filterMap fun path => do
    let canonical ← disk.canonicalize path
    let pair ← heldPair harvest disk path
    return (canonical, pair)

/-! ## File events -/

/-- A file that is gone resolves through its directory. -/
def uriToCanonicalPath (disk : Disk Content) (decoded : Path) : Option Path :=
  match disk.canonicalize decoded with
  | some canonical => some canonical
  | none => do
      let name ← decoded.getLast?
      if name = ['.', '.'] then none
      else
        let parent ← disk.canonicalize decoded.dropLast
        return parent ++ [name]

/-- A root that does not resolve rules nothing out. -/
def touchesConfiguredRoot (cfg : Config) (disk : Disk Content) (canonical decoded : Path) : Bool :=
  cfg.paths.any fun root =>
    match disk.canonicalize root with
    | none => true
    | some canonRoot => canonRoot.isPrefixOf decoded || canonRoot.isPrefixOf canonical

def watchedEventIsIgnorable (cfg : Config) (disk : Disk Content) (canonical : Option Path)
    (decoded : Path) : Bool :=
  canonical.any fun c => !touchesConfiguredRoot cfg disk c decoded

/-- What a batch of events leads to: a full build, or a patched table. -/
inductive Reharvest (Pair : Type) where
  | rebuild
  | held (files : List (HeldFile Pair))
  deriving DecidableEq

/-- The events of a batch as the paths their URIs decode to; `none` for a URI that does not
parse or names no file. -/
def reharvestSources (harvest : Path → Content → Option Pair) (cfg : Config) (disk : Disk Content) :
    List (Option Path) → List (HeldFile Pair) → Reharvest Pair
  | [], files => .held files
  | none :: _, _ => .rebuild
  | some decoded :: events, files =>
      match uriToCanonicalPath disk decoded with
      | none => .rebuild
      | some path =>
          if path ∈ files.map Prod.fst then
            if disk.pathExists path then
              match heldPair harvest disk path with
              | some pair =>
                  reharvestSources harvest cfg disk events
                    (files.map fun file => if file.1 = path then (path, pair) else file)
              | none => .rebuild
            else
              reharvestSources harvest cfg disk events (files.filter fun file => file.1 ≠ path)
          else if watchedEventIsIgnorable cfg disk (some path) decoded then
            reharvestSources harvest cfg disk events files
          else .rebuild

/-- The files that stand in the overlay after a batch. -/
def Reharvest.files (harvest : Path → Content → Option Pair) (cfg : Config) (disk : Disk Content) :
    Reharvest Pair → List (HeldFile Pair)
  | .rebuild => buildOverlay harvest cfg disk
  | .held files => files

/-! ## What a batch does -/

/-- The canonical paths of the analysable files that discovery finds, in its order. -/
def heldPaths (harvest : Path → Content → Option Pair) (cfg : Config) (disk : Disk Content) :
    List Path :=
  (projectFiles cfg disk).filterMap fun path =>
    if (heldPair harvest disk path).isSome then disk.canonicalize path else none

/-- Some event of the batch resolves to the path. -/
def names (disk : Disk Content) (events : List (Option Path)) (path : Path) : Bool :=
  events.any fun event => event.bind (uriToCanonicalPath disk) = some path

/-- The batch reports the path, and it is gone. -/
def reportedGone (disk : Disk Content) (events : List (Option Path)) (path : Path) : Bool :=
  names disk events path && !disk.pathExists path

/-- The held paths that a batch leaves. -/
def survivors (disk : Disk Content) (events : List (Option Path)) (held : List Path) : List Path :=
  held.filter fun path => !reportedGone disk events path

/-- An event needs a full build: it does not resolve, or it names a held file that is there
but not analysable, or a file that is not held and may be in scope. -/
def Forces (harvest : Path → Content → Option Pair) (cfg : Config) (disk : Disk Content)
    (held : List Path) : Option Path → Prop
  | none => True
  | some decoded =>
      match uriToCanonicalPath disk decoded with
      | none => True
      | some path =>
          if path ∈ held then disk.pathExists path = true ∧ heldPair harvest disk path = none
          else watchedEventIsIgnorable cfg disk (some path) decoded = false

/-- Some event of the batch needs a full build, given what the events before it leave. -/
def ForcesRebuild (harvest : Path → Content → Option Pair) (cfg : Config) (disk : Disk Content)
    (held : List Path) (events : List (Option Path)) : Prop :=
  ∃ front event back, events = front ++ event :: back ∧
    Forces harvest cfg disk (survivors disk front held) event

/-- The batch names every Ruby spelling whose target or content has changed. -/
def NamesChanges (before after : Disk Content) (events : List (Option Path)) : Prop :=
  ∀ path, isRuby path = true → before.stat path ≠ after.stat path → some path ∈ events

theorem isRuby_of_mem_projectFiles {cfg : Config} {disk : Disk Content} {path : Path}
    (mem : path ∈ projectFiles cfg disk) : isRuby path = true := by
  obtain ⟨root, -, expanded⟩ := List.mem_flatMap.mp mem
  rw [expandCheckPathsExcluding] at expanded
  split at expanded
  · split at expanded
    · rename_i ruby
      obtain rfl := List.mem_singleton.mp expanded
      exact ruby
    · simp at expanded
  · have collected := (List.mem_insertionSort _).mp (List.mem_filter.mp expanded).1
    simp only [collectRbFiles, List.mem_filter, Bool.and_eq_true] at collected
    exact collected.2.1.2

theorem map_fst_buildOverlay (harvest : Path → Content → Option Pair) (cfg : Config)
    (disk : Disk Content) :
    (buildOverlay harvest cfg disk).map Prod.fst = heldPaths harvest cfg disk := by
  rw [buildOverlay, heldPaths, List.map_filterMap]
  congr 1
  funext path
  cases resolved : disk.canonicalize path <;> cases held : heldPair harvest disk path <;> rfl

/-- A held file of a full build comes from a spelling of its path. -/
theorem mem_buildOverlay {harvest : Path → Content → Option Pair} {cfg : Config}
    {disk : Disk Content} {canonical : Path} {pair : Pair}
    (mem : (canonical, pair) ∈ buildOverlay harvest cfg disk) :
    ∃ path content, isRuby path = true ∧ disk.canonicalize path = some canonical ∧
      disk.files.lookup canonical = some content ∧ harvest canonical content = some pair := by
  obtain ⟨path, listed, built⟩ := List.mem_filterMap.mp mem
  obtain ⟨target, resolved, rest⟩ := Option.bind_eq_some_iff.mp built
  obtain ⟨harvested, held, same⟩ := Option.bind_eq_some_iff.mp rest
  obtain ⟨rfl, rfl⟩ := Prod.mk.inj (Option.some.inj same)
  obtain ⟨content, readable, keyed⟩ := Option.bind_eq_some_iff.mp held
  obtain ⟨key, resolved', made⟩ := Option.bind_eq_some_iff.mp keyed
  obtain rfl := Option.some.inj (resolved.symm.trans resolved')
  rw [Disk.read, resolved, Option.bind_some] at readable
  exact ⟨path, content, isRuby_of_mem_projectFiles listed, resolved, readable, made⟩

/-! ## The patched table -/

/-- What a batch makes of one held file, if it needs no full build. -/
def refresh (harvest : Path → Content → Option Pair) (disk : Disk Content)
    (events : List (Option Path)) (file : HeldFile Pair) : Option (HeldFile Pair) :=
  if names disk events file.1 then
    if disk.pathExists file.1 then (heldPair harvest disk file.1).map fun pair => (file.1, pair)
    else none
  else some file

theorem survivors_cons (disk : Disk Content) (event : Option Path) (events : List (Option Path))
    (held : List Path) :
    survivors disk (event :: events) held =
      survivors disk events (survivors disk [event] held) := by
  rw [survivors, survivors, survivors, List.filter_filter]
  congr 1
  funext path
  simp only [reportedGone, names, List.any_cons, List.any_nil, Bool.or_false]
  cases decide (event.bind (uriToCanonicalPath disk) = some path) <;>
    cases disk.pathExists path <;> simp

section Step

variable {harvest : Path → Content → Option Pair} {cfg : Config} {disk : Disk Content}
  {decoded path : Path} {files : List (HeldFile Pair)}

theorem names_cons (resolved : uriToCanonicalPath disk decoded = some path)
    (events : List (Option Path)) (other : Path) :
    names disk (some decoded :: events) other = true ↔
      path = other ∨ names disk events other = true := by
  simp [names, resolved]

/-- Patching keeps the held paths, and removing a file removes its path. -/
theorem survivors_singleton (resolved : uriToCanonicalPath disk decoded = some path)
    (held : List Path) :
    survivors disk [some decoded] held =
      if disk.pathExists path then held else held.filter fun other => other ≠ path := by
  have named (other : Path) : names disk [some decoded] other = decide (path = other) := by
    simp [names, resolved]
  by_cases there : disk.pathExists path = true
  · rw [if_pos there, survivors, List.filter_eq_self]
    intro other _
    rw [reportedGone, named]
    by_cases same : path = other
    · subst same
      simp [there]
    · simp [same]
  · rw [if_neg there, survivors]
    congr 1
    funext other
    rw [reportedGone, named]
    by_cases same : path = other
    · subst same
      simp [there]
    · simp [same, Ne.symm same]

theorem map_fst_patch (pair : Pair) :
    (files.map fun file => if file.1 = path then (path, pair) else file).map Prod.fst =
      files.map Prod.fst := by
  rw [List.map_map]
  apply List.map_congr_left
  intro file _
  simp only [Function.comp_apply]
  split
  · rename_i same
    exact same.symm
  · rfl

theorem map_fst_remove :
    (files.filter fun file => file.1 ≠ path).map Prod.fst =
      (files.map Prod.fst).filter fun other => other ≠ path := by
  rw [List.filter_map]
  rfl

/-- A file at another path is left to the later events. -/
theorem refresh_of_ne (resolved : uriToCanonicalPath disk decoded = some path)
    (events : List (Option Path)) {file : HeldFile Pair} (other : file.1 ≠ path) :
    refresh harvest disk (some decoded :: events) file = refresh harvest disk events file := by
  have named := names_cons resolved events file.1
  rw [refresh, refresh]
  by_cases later : names disk events file.1 = true
  · rw [if_pos later, if_pos (named.mpr (.inr later))]
  · have unnamed : ¬ names disk (some decoded :: events) file.1 = true := by
      rw [named]
      rintro (same | earlier)
      · exact other same.symm
      · exact later earlier
    rw [if_neg later, if_neg unnamed]

/-- One event: it needs a full build, or it patches the table to what the event makes of
each file. -/
theorem reharvestSources_cons (harvest : Path → Content → Option Pair) (cfg : Config)
    (disk : Disk Content) (event : Option Path) (events : List (Option Path))
    (files : List (HeldFile Pair)) :
    (Forces harvest cfg disk (files.map Prod.fst) event ∧
      reharvestSources harvest cfg disk (event :: events) files = .rebuild) ∨
    (¬ Forces harvest cfg disk (files.map Prod.fst) event ∧ ∃ patched,
      reharvestSources harvest cfg disk (event :: events) files =
        reharvestSources harvest cfg disk events patched ∧
      patched.map Prod.fst = survivors disk [event] (files.map Prod.fst) ∧
      ∀ later, patched.filterMap (refresh harvest disk later) =
        files.filterMap (refresh harvest disk (event :: later))) := by
  rcases event with _ | decoded
  · left
    exact ⟨trivial, rfl⟩
  rw [reharvestSources, Forces]
  rcases resolved : uriToCanonicalPath disk decoded with _ | path
  · left
    exact ⟨trivial, rfl⟩
  dsimp only
  by_cases held : path ∈ files.map Prod.fst
  · rw [if_pos held, if_pos held]
    by_cases there : disk.pathExists path = true
    · rw [if_pos there]
      rcases analysable : heldPair harvest disk path with _ | pair
      · left
        exact ⟨⟨there, rfl⟩, rfl⟩
      · right
        refine ⟨by simp, _, rfl, ?_, fun later => ?_⟩
        · rw [map_fst_patch, survivors_singleton resolved, if_pos there]
        · rw [List.filterMap_map]
          apply List.filterMap_congr
          intro file _
          rw [Function.comp_apply]
          by_cases same : file.1 = path
          · have named := (names_cons resolved later file.1).mpr (.inl same.symm)
            rw [if_pos same, refresh, refresh, if_pos named, same, if_pos there, analysable]
            split <;> rfl
          · rw [if_neg same, refresh_of_ne resolved later same]
    · rw [if_neg there]
      right
      refine ⟨fun forced => there forced.1, _, rfl, ?_, fun later => ?_⟩
      · rw [map_fst_remove, survivors_singleton resolved, if_neg there]
      · rw [List.filterMap_filter]
        apply List.filterMap_congr
        intro file _
        by_cases same : file.1 = path
        · have named := (names_cons resolved later file.1).mpr (.inl same.symm)
          have gone : refresh harvest disk (some decoded :: later) file = none := by
            rw [refresh, if_pos named, same, if_neg there]
          simp [same, gone]
        · rw [refresh_of_ne resolved later same]
          simp [same]
  · rw [if_neg held, if_neg held]
    by_cases ignorable : watchedEventIsIgnorable cfg disk (some path) decoded = true
    · rw [if_pos ignorable]
      right
      refine ⟨by simp [ignorable], files, rfl, ?_, fun later => ?_⟩
      · rw [survivors_singleton resolved]
        split
        · rfl
        · refine (List.filter_eq_self.mpr fun other mem => ?_).symm
          rw [decide_eq_true_eq]
          exact fun same => held (same ▸ mem)
      · apply List.filterMap_congr
        intro file mem
        have other : file.1 ≠ path := fun same => held (same ▸ List.mem_map_of_mem mem)
        exact (refresh_of_ne resolved later other).symm
    · rw [if_neg ignorable]
      left
      exact ⟨Bool.eq_false_iff.mpr ignorable, rfl⟩

theorem forcesRebuild_cons (event : Option Path) (events : List (Option Path)) (held : List Path) :
    ForcesRebuild harvest cfg disk held (event :: events) ↔
      Forces harvest cfg disk held event ∨
        ForcesRebuild harvest cfg disk (survivors disk [event] held) events := by
  constructor
  · rintro ⟨front, forcing, back, split, forces⟩
    rcases front with _ | ⟨first, front⟩
    · obtain ⟨rfl, rfl⟩ := List.cons.inj split
      left
      simpa [survivors, reportedGone, names] using forces
    · obtain ⟨rfl, rfl⟩ := List.cons.inj split
      right
      rw [survivors_cons] at forces
      exact ⟨front, forcing, back, rfl, forces⟩
  · rintro (forces | ⟨front, forcing, back, rfl, forces⟩)
    · refine ⟨[], event, events, rfl, ?_⟩
      simpa [survivors, reportedGone, names] using forces
    · refine ⟨event :: front, forcing, back, rfl, ?_⟩
      rw [survivors_cons]
      exact forces

end Step

/-- A batch leads to a full build if an event forces it, and otherwise refreshes each file. -/
theorem reharvestSources_eq (harvest : Path → Content → Option Pair) (cfg : Config)
    (disk : Disk Content) (events : List (Option Path)) (files : List (HeldFile Pair)) :
    (ForcesRebuild harvest cfg disk (files.map Prod.fst) events ∧
      reharvestSources harvest cfg disk events files = .rebuild) ∨
    (¬ ForcesRebuild harvest cfg disk (files.map Prod.fst) events ∧
      reharvestSources harvest cfg disk events files =
        .held (files.filterMap (refresh harvest disk events)) ∧
      (files.filterMap (refresh harvest disk events)).map Prod.fst =
        survivors disk events (files.map Prod.fst)) := by
  induction events generalizing files with
  | nil =>
      right
      have whole : files.filterMap (refresh harvest disk []) = files := by
        have same : refresh harvest disk [] =
            (some : HeldFile Pair → Option (HeldFile Pair)) := by
          funext file
          simp [refresh, names]
        rw [same, List.filterMap_some]
      refine ⟨?_, ?_, ?_⟩
      · rintro ⟨front, event, back, split, -⟩
        simp at split
      · rw [whole]
        rfl
      · rw [whole]
        simp [survivors, reportedGone, names]
  | cons event events ih =>
      rw [forcesRebuild_cons]
      rcases reharvestSources_cons harvest cfg disk event events files with
        ⟨forces, rebuilt⟩ | ⟨quiet, patched, step, paths, refreshed⟩
      · left
        exact ⟨.inl forces, rebuilt⟩
      · rw [step, ← refreshed, survivors_cons disk event events, ← paths]
        rcases ih patched with ⟨forces, rebuilt⟩ | ⟨quietLater, held, left_⟩
        · left
          exact ⟨.inr forces, rebuilt⟩
        · right
          refine ⟨?_, held, left_⟩
          rintro (forces | forces)
          · exact quiet forces
          · exact quietLater forces

/-! ## Against the full build -/

/-- Two tables with the same keys, and the same value wherever they share a key. -/
theorem eq_of_map_fst_eq {first second : List (HeldFile Pair)}
    (keys : first.map Prod.fst = second.map Prod.fst)
    (agree : ∀ key a b, (key, a) ∈ first → (key, b) ∈ second → a = b) : first = second := by
  induction first generalizing second with
  | nil => exact (List.map_eq_nil_iff.mp keys.symm).symm
  | cons file first ih =>
      rcases second with _ | ⟨other, second⟩
      · simp at keys
      · obtain ⟨head, tail⟩ := List.cons.inj keys
        obtain ⟨key, a⟩ := file
        obtain ⟨key', b⟩ := other
        obtain rfl : key = key' := head
        obtain rfl := agree key a b List.mem_cons_self List.mem_cons_self
        rw [ih tail fun key a b memA memB =>
          agree key a b (List.mem_cons_of_mem _ memA) (List.mem_cons_of_mem _ memB)]

/-- A refreshed file and a file of the full build at one path hold the same harvest. -/
theorem refresh_agrees {harvest : Path → Content → Option Pair} {cfg : Config}
    {before after : Disk Content} {events : List (Option Path)}
    (named : NamesChanges before after events) {key : Path} {a b : Pair}
    (refreshed : (key, a) ∈ (buildOverlay harvest cfg before).filterMap
      (refresh harvest after events))
    (built : (key, b) ∈ buildOverlay harvest cfg after) : a = b := by
  obtain ⟨path, content, ruby, resolved, readable, made⟩ := mem_buildOverlay built
  have fixed := after.resolved path key resolved
  have current : heldPair harvest after key = some b := by
    have again : after.canonicalize key = some key := fixed
    simp [heldPair, Disk.read, again, readable, made]
  obtain ⟨⟨key', old⟩, wasHeld, kept⟩ := List.mem_filterMap.mp refreshed
  rw [refresh] at kept
  split at kept
  · split at kept
    · obtain ⟨pair, paired, same⟩ := Option.map_eq_some_iff.mp kept
      obtain ⟨rfl, rfl⟩ := Prod.mk.inj same
      exact Option.some.inj (paired.symm.trans current)
    · contradiction
  · rename_i unnamed
    obtain ⟨rfl, rfl⟩ := Prod.mk.inj (Option.some.inj kept)
    -- the spelling of the full build has not changed, or the batch would name the path
    have unchanged : before.stat path = after.stat path := by
      by_contra changed
      apply unnamed
      have resolves : uriToCanonicalPath after path = some key' := by
        rw [uriToCanonicalPath, resolved]
      exact List.any_eq_true.mpr ⟨some path, named path ruby changed, by simp [resolves]⟩
    obtain ⟨path', content', -, -, readable', made'⟩ := mem_buildOverlay wasHeld
    rw [Disk.stat, Disk.stat, resolved] at unchanged
    obtain ⟨target, -, same⟩ := Option.map_eq_some_iff.mp unchanged
    obtain ⟨rfl, contents⟩ := Prod.mk.inj same
    rw [readable', readable] at contents
    obtain rfl := Option.some.inj contents
    exact Option.some.inj (made'.symm.trans made)

/-- From a full build of the old disk, and with all changes named, a batch leaves the full
build of the new disk exactly if an event forces one, or the held paths that survive
the batch are, in order, the paths that discovery finds on the new disk. -/
theorem reharvest_eq_build_iff (harvest : Path → Content → Option Pair) (cfg : Config)
    (before after : Disk Content) (events : List (Option Path))
    (named : NamesChanges before after events) :
    (reharvestSources harvest cfg after events (buildOverlay harvest cfg before)).files
        harvest cfg after = buildOverlay harvest cfg after ↔
      ForcesRebuild harvest cfg after (heldPaths harvest cfg before) events ∨
        survivors after events (heldPaths harvest cfg before) = heldPaths harvest cfg after := by
  simp only [← map_fst_buildOverlay]
  rcases reharvestSources_eq harvest cfg after events (buildOverlay harvest cfg before) with
    ⟨forces, rebuilt⟩ | ⟨quiet, patched, paths⟩
  · rw [rebuilt]
    exact ⟨fun _ => .inl forces, fun _ => rfl⟩
  · rw [patched, Reharvest.files, ← paths]
    constructor
    · intro same
      right
      rw [same]
    · rintro (forces | same)
      · exact absurd forces quiet
      · exact eq_of_map_fst_eq same fun key a b memA memB => refresh_agrees named memA memB

end Overlay

/-! ## A link to a held file -/

section Link

def libDir : Path :=
  [['l', 'i', 'b']]

def fileA : Path :=
  [['l', 'i', 'b'], ['a', '.', 'r', 'b']]

def fileB : Path :=
  [['l', 'i', 'b'], ['b', '.', 'r', 'b']]

def libConfig : Config where
  paths := [libDir]
  excludes _ := false

def keepContent (_ : Path) (content : Nat) : Option Nat :=
  some content

/-- Two files. -/
def twoFiles : Disk Nat where
  links := [(libDir, libDir), (fileA, fileA), (fileB, fileB)]
  files := [(fileA, 1), (fileB, 2)]
  resolved path target found := by
    simp only [List.lookup_cons, List.lookup_nil] at found ⊢
    split at found <;> grind

/-- The first of two files has become a link to the second. -/
def linkedFiles : Disk Nat where
  links := [(libDir, libDir), (fileA, fileB), (fileB, fileB)]
  files := [(fileB, 2)]
  resolved path target found := by
    simp only [List.lookup_cons, List.lookup_nil] at found ⊢
    split at found <;> grind

/-- The first of two files has new content. -/
def editedFiles : Disk Nat where
  links := [(libDir, libDir), (fileA, fileA), (fileB, fileB)]
  files := [(fileA, 3), (fileB, 2)]
  resolved := twoFiles.resolved

theorem namesChanges_linked : NamesChanges twoFiles linkedFiles [some fileA] := by
  intro path _ changed
  by_cases isA : path = fileA
  · simp [isA]
  · exfalso
    apply changed
    have other : (path == fileA) = false := beq_eq_false_iff_ne.mpr isA
    have resolved : twoFiles.canonicalize path = linkedFiles.canonicalize path := by
      simp only [Disk.canonicalize, twoFiles, linkedFiles, List.lookup_cons, List.lookup_nil, other]
    rw [Disk.stat, Disk.stat, resolved]
    apply Option.map_congr
    intro target found
    have notA : (target == fileA) = false := by
      rw [beq_eq_false_iff_ne]
      rintro rfl
      simp only [Disk.canonicalize, linkedFiles, List.lookup_cons, List.lookup_nil] at found
      grind [libDir, fileA, fileB]
    simp only [twoFiles, linkedFiles, List.lookup_cons, List.lookup_nil, notA]

theorem namesChanges_edited : NamesChanges twoFiles editedFiles [some fileA] := by
  intro path _ changed
  by_cases isA : path = fileA
  · simp [isA]
  · exfalso
    apply changed
    apply Option.map_congr
    intro target found
    have notA : (target == fileA) = false := by
      rw [beq_eq_false_iff_ne]
      rintro rfl
      simp only [Disk.canonicalize, twoFiles, List.lookup_cons, List.lookup_nil] at found
      grind [libDir, fileA, fileB]
    simp only [twoFiles, editedFiles, List.lookup_cons, List.lookup_nil, notA]

/-- The link resolves to a held file, so the batch refreshes that file and keeps the entry
of the file that the link has replaced. -/
theorem reharvest_ne_build_linked : NamesChanges twoFiles linkedFiles [some fileA] ∧
    (reharvestSources keepContent libConfig linkedFiles [some fileA]
        (buildOverlay keepContent libConfig twoFiles)).files keepContent libConfig linkedFiles ≠
      buildOverlay keepContent libConfig linkedFiles :=
  ⟨namesChanges_linked, by decide⟩

/-- An edit is patched in place. -/
theorem reharvest_eq_build_edited :
    (reharvestSources keepContent libConfig editedFiles [some fileA]
        (buildOverlay keepContent libConfig twoFiles)).files keepContent libConfig editedFiles =
      buildOverlay keepContent libConfig editedFiles :=
  (reharvest_eq_build_iff keepContent libConfig twoFiles editedFiles [some fileA]
    namesChanges_edited).mpr (.inr (by decide))

end Link

end Rigor.Cli.Lsp
