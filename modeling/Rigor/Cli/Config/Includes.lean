import Rigor.Cli.Config.DeepMerge
import Rigor.Rust.Paths
import Rigor.Rust.Utf8

/-!
# Included configurations

`load_with_includes` of `config.rs` over a finite file system.  A file is its mapping; the loader
resolves the file's own paths against its directory, loads what its `includes` name, and merges the
lot.  The files above a file are passed along, so that one that includes itself is refused.
-/

namespace Rigor.Cli.Config

open Rigor.Library.Entries Rigor.Rust

structure LoadFailure where
  message : Text
  code : Nat
deriving DecidableEq

/-- What the loader asks of the machine, and how the libraries print values. -/
structure Host (N : Type) where
  /-- `HOME` -/
  home : Option Text
  /-- `/etc/passwd` -/
  passwd : Option Text
  /-- `id -u` -/
  uid : Option Text
  currentDir : PathBytes
  texts : Texts N

/-- A file that parses as a mapping. -/
structure ConfigFile (N : Type) where
  keys : Mapping N
  /-- The texts of its severity overrides' keys. -/
  overrideKeyTexts : List Text

/-- The files by their expanded paths. -/
abbrev Files (N : Type) := List (PathBytes × ConfigFile N)

variable {N : Type}

/-- `Path::display` -/
def display (path : PathBytes) : Text :=
  fromUtf8Lossy path

/-! ## Paths of a file -/

def passwdEntry (host : Host N) (pred : List Text → Bool) : Option Text := do
  let text ← host.passwd
  (Text.lines text).findSome? fun line =>
    let fields := line.splitOn ':'
    if 6 ≤ fields.length && pred fields then fields[5]? else none

def passwdHome (host : Host N) (user : Text) : Option Text :=
  passwdEntry host fun fields => fields.head? = some user

def currentUserHome (host : Host N) : Option Text := do
  let uid ← host.uid
  passwdEntry host fun fields => fields[2]? = some uid

def homeDir (host : Host N) : Option Text :=
  (host.home.filter (· ≠ [])).or (currentUserHome host)

def expandTildeHead (host : Host N) (raw : Text) : Except LoadFailure Text :=
  match Text.stripPrefix ['~'] raw with
  | none => .ok raw
  | some rest =>
      let (user, tail) := match Text.splitOnce '/' rest with
        | some (u, t) => (u, '/' :: t)
        | none => (rest, [])
      let home := if user = [] then homeDir host else passwdHome host user
      match home with
      | some h => .ok (h.rdropWhile (· = '/') ++ tail)
      | none =>
          if user = [] then .ok raw
          else .error ⟨"user ".toList ++ user ++ " doesn't exist".toList, 1⟩

/-- One component of the loop of `expand_path`. -/
def expandComponent (out : PathBytes) : Component → PathBytes
  | .curDir => out
  | .parentDir => pop out
  | .rootDir => push out [slash]
  | .normal name => push out name

def expandPath (currentDir path : PathBytes) : PathBytes :=
  let abs := if path = [] || isAbsolute path then path else join currentDir path
  (components abs).foldl expandComponent []

def expandConfigEntry (host : Host N) (entry : Text) (base : PathBytes) :
    Except LoadFailure PathBytes := do
  let expanded ← expandTildeHead host entry
  let path := Text.bytes expanded
  let joined := if isAbsolute path then path else join base path
  return expandPath host.currentDir joined

/-- The entry of a path key, with its path resolved. -/
def resolveEntry (host : Host N) (baseDir : PathBytes) (entry : Text) :
    Except LoadFailure (Value N) := do
  let path ← expandConfigEntry host entry baseDir
  return .string (fromUtf8Lossy path)

/-- The array of a value, with its paths resolved. -/
def resolveEntries (host : Host N) (baseDir : PathBytes) (value : Value N) :
    Except LoadFailure (Value N) := do
  let resolved ← (rubyArrayRaw value).mapM fun entry =>
    resolveEntry host baseDir (rubyToS host.texts entry)
  return .sequence resolved

def pathKeys : List Text :=
  ["paths".toList, "signature_paths".toList, "pre_eval".toList]

def resolvePathKey (E : SerdeYaml N) (host : Host N) (baseDir : PathBytes) (out : Mapping N)
    (key : Text) : Except LoadFailure (Mapping N) :=
  match E.get? (.string key) out with
  | none => .ok out
  | some v =>
      if v.isNull then .ok out
      else do
        let resolved ← resolveEntries host baseDir v
        return E.insert (.string key) resolved out

def resolveCoreRoot (E : SerdeYaml N) (host : Host N) (baseDir : PathBytes) (out : Mapping N) :
    Except LoadFailure (Mapping N) :=
  match E.get? (.string "core_root".toList) out with
  | some (.string cr) => do
      let abs ← resolveEntry host baseDir cr
      return E.insert (.string "core_root".toList) abs out
  | _ => .ok out

def resolvePluginsIo (E : SerdeYaml N) (host : Host N) (baseDir : PathBytes) (out : Mapping N) :
    Except LoadFailure (Mapping N) :=
  match E.get? (.string "plugins_io".toList) out with
  | some (.mapping pluginsIo) => do
      let resolved ← resolvePathKey E host baseDir pluginsIo "allowed_paths".toList
      return E.insert (.string "plugins_io".toList) (.mapping resolved) out
  | _ => .ok out

def resolvePathsIn (E : SerdeYaml N) (host : Host N) (out : Mapping N) (baseDir : PathBytes) :
    Except LoadFailure (Mapping N) := do
  let out ← pathKeys.foldlM (resolvePathKey E host baseDir) out
  let out ← resolveCoreRoot E host baseDir out
  resolvePluginsIo E host baseDir out

/-! ## Loading -/

def circularInclude (absolute : PathBytes) : LoadFailure :=
  ⟨"circular include: ".toList ++ display absolute, 64⟩

def includeNotFound (host : Host N) (inc : Value N) (baseDir : PathBytes) : LoadFailure :=
  ⟨"include not found: ".toList ++ rubyInspect host.texts inc ++ " (referenced from ".toList ++
    display baseDir ++ [')'], 64⟩

/-- Every file of the file system is a mapping; the others are absent. -/
def readYaml (files : Files N) (absolute : PathBytes) : Except LoadFailure (ConfigFile N) :=
  match files.lookup absolute with
  | some file => .ok file
  | none => .error ⟨"cannot read config ".toList ++ display absolute ++
      ": No such file or directory (os error 2)".toList, 1⟩

/-- What the loader notes beside the merged mapping. -/
structure Notes where
  includesSeen : Bool
  keyTexts : List Text

def includesOf (E : SerdeYaml N) (keys : Mapping N) : List (Value N) :=
  match E.get? (.string "includes".toList) keys with
  | some v => rubyArrayRaw v
  | none => []

/-- The loop over the included files, on what is merged so far. -/
def mergeFrom (E : SerdeYaml N) (host : Host N) (files : Files N) (baseDir : PathBytes)
    (load : PathBytes → Notes → Option (Except LoadFailure (Mapping N × Notes))) :
    List (Value N) → Mapping N → Notes → Option (Except LoadFailure (Mapping N × Notes))
  | [], accumulated, notes => some (.ok (accumulated, notes))
  | inc :: includes, accumulated, notes =>
      match expandConfigEntry host (rubyToS host.texts inc) baseDir with
      | .error failure => some (.error failure)
      | .ok incPath =>
          if (files.lookup incPath).isNone then some (.error (includeNotFound host inc baseDir))
          else match load incPath notes with
            | none => none
            | some (.error failure) => some (.error failure)
            | some (.ok (sub, notes)) =>
                mergeFrom E host files baseDir load includes (mergeEntries E accumulated sub) notes

def mergeIncludes (E : SerdeYaml N) (host : Host N) (files : Files N) (data : Mapping N)
    (includes : List (Value N)) (baseDir : PathBytes)
    (load : PathBytes → Notes → Option (Except LoadFailure (Mapping N × Notes))) (notes : Notes) :
    Option (Except LoadFailure (Mapping N × Notes)) :=
  match mergeFrom E host files baseDir load includes [] notes with
  | some (.ok (accumulated, notes)) => some (.ok (mergeEntries E accumulated data, notes))
  | other => other

/-- The number bounds the depth of the includes. -/
def loadWithIncludes (E : SerdeYaml N) (host : Host N) (files : Files N) :
    Nat → PathBytes → List PathBytes → Notes → Option (Except LoadFailure (Mapping N × Notes))
  | 0, _, _, _ => none
  | fuel + 1, absolute, visited, notes =>
      if absolute ∈ visited then some (.error (circularInclude absolute))
      else match readYaml files absolute with
        | .error failure => some (.error failure)
        | .ok raw =>
            let baseDir := pop absolute
            let includesSeen := (E.get? (.string "includes".toList) raw.keys).isSome
            let notes := ⟨notes.includesSeen || includesSeen, notes.keyTexts ++ raw.overrideKeyTexts⟩
            let removed := E.swapRemove (.string "includes".toList) raw.keys
            match resolvePathsIn E host removed baseDir with
            | .error failure => some (.error failure)
            | .ok data =>
                mergeIncludes E host files data (includesOf E raw.keys) baseDir
                  (fun incPath => loadWithIncludes E host files fuel incPath (absolute :: visited)) notes

end Rigor.Cli.Config
