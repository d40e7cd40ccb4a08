import Mathlib.Data.Finset.Dedup
import Mathlib.Data.Finset.Lattice.Basic
import Mathlib.Data.Finset.SDiff
import Rigor.Infer.Source.Constants
import Rigor.Infer.Source.LiteralFold
import Rigor.Library.KeyedJoin

/-!
# The project merge

The merge folds the harvests of the files into one index, in file order.  Hash sets are finite
sets, and a hash map that the merge reads entry by entry is the list of its entries.
-/

namespace Rigor.Infer.Source

open Rigor.Library
open Rigor.Library.Grouping
open Std (ExtTreeMap)

universe u v

inductive Visibility where
  | isPublic
  | isProtected
  | isPrivate
  deriving DecidableEq

/-! ## The harvest of a file -/

/-- `HarvestedOverrideClass`: one class or module body under its qualified name. -/
structure OverrideRow (Refinement : Type v) where
  qualified : Path
  superclass : Option Text
  methods : List Text
  methodVisibilities : List (Text × Visibility)
  visibilityRemarks : List (Text × Visibility)
  includes : List Text
  extends_ : List Text
  isModule : Bool
  refines : List Refinement

/-- `RebindDef`: a `def`, with its slot in the def tables if they hold it. -/
structure RebindDef where
  name : Text
  slot : Option (Text × Bool)
  escapes : Bool

/-- A file with what the merge reads of its harvest.  The override rows are those of the bodies
that the override walk meets. -/
structure ProjectFile (FileKey : Type u) (Refinement : Type v) extends SourceFile FileKey where
  overrideRows : List (OverrideRow Refinement)
  qualified_overrideRows : overrideRows.map (·.qualified) = overrideClassNames [] root
  toplevelDefs : Finset Text
  macroMethods : List (Text × Finset Text)
  defNames : List (Text × Finset Text)
  mutatedParams : List (Text × Finset Nat)
  rebindDefs : List RebindDef
  bodiless : List Text
  foldDefs : List (MethodKey × FoldSite)

variable {FileKey : Type u} {Refinement : Type v}

/-! ## The override index -/

/-- The two visibility tables of a class: the slots that a `def` wrote, with the last value, and
each file's own final value of every slot. -/
structure VisibilityTables where
  methodVisibilities : List (Text × Visibility)
  fileVisibilities : List (Text × List (Nat × Visibility))

structure OverrideClass (Refinement : Type v) extends VisibilityTables where
  superclass : Option Text
  includes : List Text
  extends_ : List Text
  methods : Finset Text
  isModule : Bool
  refines : List Refinement

/-- One write of a slot by a file; a re-mark does not define the slot. -/
structure SlotWrite where
  file : Nat
  method : Text
  visibility : Visibility
  defines : Bool

def noVisibilities : VisibilityTables :=
  ⟨[], []⟩

/-- The file's slot takes the new value; the class's slot does if some body defines it. -/
def writeSlot (tables : VisibilityTables) (write : SlotWrite) : VisibilityTables where
  methodVisibilities :=
    if write.defines || (tables.methodVisibilities.lookup write.method).isSome then
      upsert write.method write.visibility (fun _ => write.visibility) tables.methodVisibilities
    else tables.methodVisibilities
  fileVisibilities :=
    upsert write.method [] (upsert write.file write.visibility fun _ => write.visibility)
      tables.fileVisibilities

/-- The answer for a slot: only if some body defines it and every file that writes it ends on the
same value. -/
def VisibilityTables.settled (tables : VisibilityTables) (method : Text) : Option Visibility :=
  match tables.methodVisibilities.lookup method, tables.fileVisibilities.lookup method with
  | some _, some perFile =>
      match perFile.map Prod.snd with
      | [] => none
      | first :: rest => if rest.all (· == first) then some first else none
  | _, _ => none

/-- The writes of a body: the re-marks first, then its own table. -/
def OverrideRow.slotWrites (file : Nat) (row : OverrideRow Refinement) : List SlotWrite :=
  row.visibilityRemarks.map (fun mark => ⟨file, mark.1, mark.2, false⟩) ++
    row.methodVisibilities.map fun mark => ⟨file, mark.1, mark.2, true⟩

/-- Append what is not there yet. -/
def pushNew (held : List Text) (name : Text) : List Text :=
  if held.contains name then held else held ++ [name]

def freshOverrideClass (row : OverrideRow Refinement) : OverrideClass Refinement :=
  ⟨noVisibilities, none, [], [], ∅, row.isModule, []⟩

/-- `ingest_override_class` on the entry of the class. -/
def ingestOverrideRow (file : Nat) (row : OverrideRow Refinement)
    (entry : OverrideClass Refinement) : OverrideClass Refinement where
  toVisibilityTables := (row.slotWrites file).foldl writeSlot entry.toVisibilityTables
  superclass := entry.superclass.or row.superclass
  includes := row.includes.foldl pushNew entry.includes
  extends_ := row.extends_.foldl pushNew entry.extends_
  methods := entry.methods ∪ row.methods.toFinset
  isModule := entry.isModule
  refines := entry.refines ++ row.refines

/-! ## The merge -/

/-- One more for each occurrence of a key. -/
def countAll {κ : Type} [BEq κ] (keys : List κ) : List (κ × Nat) :=
  keys.foldl (fun counts key => upsert key 0 (· + 1) counts) []

section Merge

variable (files : List (ProjectFile FileKey Refinement))

/-- The override rows in the order of the replay, each with the position of its file. -/
def overrideReplay : List (Nat × OverrideRow Refinement) :=
  files.zipIdx.flatMap fun file => file.1.overrideRows.map fun row => (file.2, row)

def overrideIndex : List (Path × OverrideClass Refinement) :=
  (overrideReplay files).foldl
    (fun index item =>
      upsert item.2.qualified (freshOverrideClass item.2) (ingestOverrideRow item.1 item.2) index) []

def toplevelNames : Finset Text :=
  files.foldl (fun names file => names ∪ file.toplevelDefs) ∅

def unionMacros : ExtTreeMap Text (Finset Text) Text.cmp :=
  Keyed.joinAll ∅ (files.flatMap (·.macroMethods))

def unionDefNames : ExtTreeMap Text (Finset Text) Text.cmp :=
  Keyed.joinAll ∅ (files.flatMap (·.defNames))

/-- `subtract_def_methods`: the names with a `def` leave the owner's table. -/
def subtractDefMethods (discovered defs : ExtTreeMap Text (Finset Text) Text.cmp) :
    ExtTreeMap Text (Finset Text) Text.cmp :=
  defs.toList.foldl
    (fun discovered owner => discovered.modify owner.1 fun methods => methods \ owner.2) discovered

def discoveredMethods : ExtTreeMap Text (Finset Text) Text.cmp :=
  subtractDefMethods (unionMacros files) (unionDefNames files)

/-- The top-level names, with the macro names of `Object`. -/
def toplevelDefs : Finset Text :=
  toplevelNames files ∪ (discoveredMethods files)["Object".toList]?.getD ∅

def mutatedParams : ExtTreeMap Text (Finset Nat) Text.cmp :=
  Keyed.joinAll ∅ (files.flatMap (·.mutatedParams))

/-- The slot that the census counts for a `def`: one in the def tables that keeps its block. -/
def RebindDef.countedSlot (definition : RebindDef) : Option (Text × Text × Bool) :=
  if definition.escapes then none
  else definition.slot.map fun slot => (definition.name, slot.1, slot.2)

def censusSlots : List ((Text × Text × Bool) × Nat) :=
  countAll (files.flatMap fun file => file.rebindDefs.filterMap RebindDef.countedSlot)

/-- The names that the census takes without counting. -/
def uncountedNames (file : ProjectFile FileKey Refinement) : List Text :=
  (file.rebindDefs.filter (·.countedSlot.isNone)).map (·.name) ++ file.bodiless

def rebindNames : Finset Text :=
  (files.flatMap uncountedNames).toFinset ∪
    (((censusSlots files).filter (1 < ·.2)).map (·.1.1)).toFinset

def floorCalleeNames : List (Text × Nat) :=
  countAll (files.flatMap fun file => file.rebindDefs.map (·.name) ++ file.bodiless)

def floorMethodMissing : Bool :=
  files.any fun file => file.rebindDefs.any (·.name == "method_missing".toList)

/-- `invert_definers`, over the keys of the joined def sites. -/
def invertDefiners (keys : List MethodKey) : List ((Text × DefKind) × List Text) :=
  keys.foldl
    (fun definers key => upsert (key.2.1, key.2.2) [] (fun owners => pushNew owners key.1) definers)
    []

def definers : List ((Text × DefKind) × List Text) :=
  invertDefiners (files.flatMap fun file => file.foldDefs.map Prod.fst).eraseDups

/-- The fields of the index that the passes over the harvests fill. -/
structure SourceIndex (FileKey : Type u) (Refinement : Type v) where
  overrideClasses : List (Path × OverrideClass Refinement)
  rebindNames : Finset Text
  floorCalleeNames : List (Text × Nat)
  floorMethodMissing : Bool
  discoveredMethods : ExtTreeMap Text (Finset Text) Text.cmp
  toplevelDefs : Finset Text
  mutatedParams : ExtTreeMap Text (Finset Nat) Text.cmp
  literalConstants : List (Path × HarvestedConst FileKey)
  definers : List ((Text × DefKind) × List Text)

/-- `merge`. -/
def merge : SourceIndex FileKey Refinement where
  overrideClasses := overrideIndex files
  rebindNames := rebindNames files
  floorCalleeNames := floorCalleeNames files
  floorMethodMissing := floorMethodMissing files
  discoveredMethods := discoveredMethods files
  toplevelDefs := toplevelDefs files
  mutatedParams := mutatedParams files
  literalConstants := qualifiedLiteralConstants (files.map (·.toSourceFile))
  definers := definers files

end Merge

/-! ## The answers of the index -/

namespace SourceIndex

variable (index : SourceIndex FileKey Refinement)

/-- `method_visibility`. -/
def methodVisibility (className : Path) (method : Text) : Option Visibility :=
  (index.overrideClasses.lookup className).bind (·.settled method)

/-- The owners that define a method. -/
def definerSet (method : Text) (kind : DefKind) : Option (Finset Text) :=
  (index.definers.lookup (method, kind)).map List.toFinset

end SourceIndex

end Rigor.Infer.Source
