import Mathlib.Algebra.GroupWithZero.Nat
import Rigor.Infer.Source.ConstantNodes
import Rigor.Library.Grouping
import Rigor.Library.Nesting

/-!
# Literal constants of a project

The merge keeps a harvested constant if the project writes it once, with a literal, and no class or
module has its name.  A read then binds to the innermost scope whose constant was kept in its own
file.  Ruby binds to the innermost scope that has a constant of that name, kept or not.
-/

namespace Rigor.Infer.Source

open Rigor.Library
open Rigor.Library.Grouping

universe u

variable {FileKey : Type u}

structure SourceFile (FileKey : Type u) where
  key : FileKey
  root : Node
  constMutations : List ConstMutation

namespace SourceFile

def mutated (file : SourceFile FileKey) : List Path :=
  mutatedConstantNames file.constMutations

def constantWrites (file : SourceFile FileKey) : List HarvestedConstWrite :=
  collectLiteralConstants file.mutated [] [] file.root

/-- The assignments of the constant that the harvest walk meets in the file. -/
def walked (file : SourceFile FileKey) (qualified : Path) : List (Path × Text × Node) :=
  (walkedWrites [] file.root).filter (qualifiedOf · == qualified)

end SourceFile

/-- A kept constant: its defining namespace, the file that assigns it and its value. -/
structure HarvestedConst (FileKey : Type u) where
  home : Path
  file : FileKey
  lit : ConstLit

/-! ## The merge -/

section Merge

variable (files : List (SourceFile FileKey))

/-- What the merge reads of the harvests, in file order. -/
def litEntries : List (Path × Path × FileKey × Option ConstLit) :=
  files.flatMap fun file =>
    file.constantWrites.map fun write => (write.qualified, write.home, file.key, write.lit)

/-- `lit_first`: the first write of each qualified name. -/
def litFirst : List (Path × Path × FileKey × Option ConstLit) :=
  (litEntries files).foldl (fun table entry => insertNew entry.1 entry.2 table) []

/-- `lit_writes`: the summed counts of the files. -/
def litWrites (qualified : Path) : Nat :=
  (files.map fun file =>
    ((file.constantWrites.filter (·.qualified == qualified)).map (·.writes)).sum).sum

def overrideClasses : List Path :=
  files.flatMap fun file => overrideClassNames [] file.root

def sourceClasses : List Path :=
  files.flatMap fun file => sourceClassNames file.root

/-- The last segment of a qualified name, as a name of its own. -/
def bareName (qualified : Path) : Path :=
  [qualified.getLastD []]

/-- The gates that a first write passes, or is dropped by. -/
def gateConstant (entry : Path × Path × FileKey × Option ConstLit) :
    Option (Path × HarvestedConst FileKey) :=
  if 2 ≤ litWrites files entry.1 then none
  else if (overrideClasses files).contains entry.1 ||
      (sourceClasses files).contains (bareName entry.1) then none
  else entry.2.2.2.map fun lit => (entry.1, ⟨entry.2.1, entry.2.2.1, lit⟩)

def qualifiedLiteralConstants : List (Path × HarvestedConst FileKey) :=
  (litFirst files).filterMap (gateConstant files)

end Merge

/-! ## The lookups -/

section Lookups

variable (table : List (Path × HarvestedConst FileKey))

/-- The kept constants of a bare name. -/
def literalConstants (name : Path) : List (HarvestedConst FileKey) :=
  (table.filter (bareName ·.1 == name)).map Prod.snd

variable [DecidableEq FileKey]

/-- The entry that `literal_constant` answers from. -/
def literalConstantEntry (name usePrefix : Path) (useFile : FileKey) :
    Option (HarvestedConst FileKey) :=
  lastMaxBy (·.home.length)
    (((literalConstants table name).filter (·.file == useFile)).filter
      fun entry => entry.home.isPrefixOf usePrefix)

def literalConstant (name usePrefix : Path) (useFile : FileKey) : Option ConstLit :=
  (literalConstantEntry table name usePrefix useFile).map (·.lit)

/-- The loop over the candidate keys: a second key with a constant ends it. -/
def candidateHit :
    List Path → Option (Path × HarvestedConst FileKey) → Option (Path × HarvestedConst FileKey)
  | [], hit => hit
  | key :: keys, hit =>
      match table.lookup key with
      | none => candidateHit keys hit
      | some found =>
          match hit with
          | none => candidateHit keys (some (key, found))
          | some (previous, held) =>
              if previous = key then candidateHit keys (some (previous, held)) else none

/-- The entry that `qualified_literal_constant` answers from. -/
def qualifiedLiteralConstantEntry (name usePrefix : Path) (useFile : FileKey) :
    Option (HarvestedConst FileKey) :=
  if name.length < 2 then none
  else
    match candidateHit table
        (((List.range (usePrefix.length + 1)).map usePrefix.take).map (· ++ name)) none with
    | none => none
    | some (_, entry) =>
        if entry.file = useFile ∧ entry.home.isPrefixOf usePrefix then some entry else none

def qualifiedLiteralConstant (name usePrefix : Path) (useFile : FileKey) : Option ConstLit :=
  (qualifiedLiteralConstantEntry table name usePrefix useFile).map (·.lit)

end Lookups

/-! ## What the gates keep -/

section Kept

variable (files : List (SourceFile FileKey)) (qualified : Path)

/-- The assignments that the walk meets in the project, each with its file. -/
def located : List (SourceFile FileKey × Path × Text × Node) :=
  files.flatMap fun file => (file.walked qualified).map fun write => (file, write)

/-- What the first of the located assignments records. -/
def firstWrite :
    List (SourceFile FileKey × Path × Text × Node) → Option (Path × FileKey × Option ConstLit)
  | [] => none
  | (file, write) :: _ => some (write.1, file.key, harvestedLit file.mutated qualified write.2.2)

theorem located_cons (file : SourceFile FileKey) (files : List (SourceFile FileKey)) :
    located (file :: files) qualified =
      (file.walked qualified).map (fun write => (file, write)) ++ located files qualified :=
  rfl

theorem filter_constantWrites (file : SourceFile FileKey) :
    file.constantWrites.filter (·.qualified == qualified) =
      entryOf file.mutated qualified (file.walked qualified) :=
  filter_collectLiteralConstants file.mutated file.root qualified

theorem sum_writes_entryOf (mutated : List Path) (writes : List (Path × Text × Node)) :
    ((entryOf mutated qualified writes).map (·.writes)).sum = writes.length := by
  cases writes with
  | nil => rfl
  | cons write rest => simp [entryOf]

/-- The summed counts are the number of assignments that the walk meets. -/
theorem litWrites_eq : litWrites files qualified = (located files qualified).length := by
  induction files with
  | nil => rfl
  | cons file files ih =>
      rw [located_cons, List.length_append, List.length_map, ← ih, litWrites, litWrites,
        List.map_cons, List.sum_cons, filter_constantWrites, sum_writes_entryOf]

theorem lookup_map_constantWrites (file : SourceFile FileKey) (writes : List HarvestedConstWrite) :
    (writes.map fun write => (write.qualified, write.home, file.key, write.lit)).lookup qualified =
      ((writes.filter (·.qualified == qualified)).head?).map fun write =>
        (write.home, file.key, write.lit) := by
  induction writes with
  | nil => rfl
  | cons write rest ih =>
      rw [List.map_cons, List.lookup_cons, List.filter_cons, ih]
      by_cases same : write.qualified = qualified
      · simp [same]
      · simp [same, beq_eq_false_iff_ne.mpr (Ne.symm same)]

/-- The table of first writes looks up the first located assignment. -/
theorem lookup_litFirst :
    (litFirst files).lookup qualified = firstWrite qualified (located files qualified) := by
  rw [litFirst, lookup_foldl_insertNew, List.lookup_nil, Option.none_or]
  induction files with
  | nil => rfl
  | cons file files ih =>
      rw [litEntries, List.flatMap_cons, List.lookup_append, ← litEntries, ih, located_cons,
        lookup_map_constantWrites, filter_constantWrites]
      cases file.walked qualified with
      | nil => rfl
      | cons write rest => rfl

/-- A constant passes the gates: the walk meets one assignment of it, with a literal, and its name
is no class's and no module's. -/
structure Kept (entry : HarvestedConst FileKey) : Prop where
  single : ∃ file write, located files qualified = [(file, write)] ∧ entry.home = write.1 ∧
    entry.file = file.key ∧ harvestedLit file.mutated qualified write.2.2 = some entry.lit
  noOverride : qualified ∉ overrideClasses files
  noClass : bareName qualified ∉ sourceClasses files

theorem gateConstant_key {entry : Path × Path × FileKey × Option ConstLit}
    {kept : Path × HarvestedConst FileKey} (passes : gateConstant files entry = some kept) :
    kept.1 = entry.1 := by
  unfold gateConstant at passes
  split at passes
  · contradiction
  · split at passes
    · contradiction
    · rcases Option.map_eq_some_iff.mp passes with ⟨lit, -, rfl⟩
      rfl

theorem nodup_litFirst : ((litFirst files).map Prod.fst).Nodup :=
  nodup_foldl_insertNew _ List.nodup_nil

theorem nodup_qualifiedLiteralConstants :
    ((qualifiedLiteralConstants files).map Prod.fst).Nodup := by
  have keysSublist : ∀ entries : List (Path × Path × FileKey × Option ConstLit),
      ((entries.filterMap (gateConstant files)).map Prod.fst).Sublist (entries.map Prod.fst) := by
    intro entries
    induction entries with
    | nil => exact List.Sublist.refl _
    | cons entry rest ih =>
        cases passes : gateConstant files entry with
        | none =>
            rw [List.filterMap_cons_none passes]
            exact ih.cons _
        | some kept =>
            rw [List.filterMap_cons_some passes, List.map_cons, List.map_cons,
              gateConstant_key files passes]
            exact ih.cons_cons _
  exact (nodup_litFirst files).sublist (keysSublist _)

theorem gateConstant_eq_some_iff (home : Path) (file : FileKey) (lit : Option ConstLit)
    (entry : HarvestedConst FileKey) :
    gateConstant files (qualified, home, file, lit) = some (qualified, entry) ↔
      litWrites files qualified < 2 ∧ qualified ∉ overrideClasses files ∧
        bareName qualified ∉ sourceClasses files ∧
        entry.home = home ∧ entry.file = file ∧ lit = some entry.lit := by
  rcases entry with ⟨entryHome, entryFile, entryLit⟩
  unfold gateConstant
  by_cases twice : 2 ≤ litWrites files qualified
  · have notOnce : ¬ litWrites files qualified < 2 := by omega
    simp [twice, notOnce]
  · have once : litWrites files qualified < 2 := by omega
    by_cases override : qualified ∈ overrideClasses files
    · simp [twice, override]
    · by_cases source : bareName qualified ∈ sourceClasses files
      · simp [twice, source]
      · simp only [twice, override, source, once, if_false, List.contains_eq_mem, decide_false,
          Bool.or_self, Bool.false_eq_true, not_false_eq_true, true_and, Option.map_eq_some_iff,
          Prod.mk.injEq, HarvestedConst.mk.injEq]
        constructor
        · rintro ⟨value, found, rfl, rfl, rfl⟩
          exact ⟨rfl, rfl, found⟩
        · rintro ⟨rfl, rfl, found⟩
          exact ⟨entryLit, found, rfl, rfl, rfl⟩

/-- The table of kept constants holds what passes the gates. -/
theorem lookup_qualifiedLiteralConstants (entry : HarvestedConst FileKey) :
    (qualifiedLiteralConstants files).lookup qualified = some entry ↔
      Kept files qualified entry := by
  rw [← mem_iff_lookup (nodup_qualifiedLiteralConstants files), qualifiedLiteralConstants,
    List.mem_filterMap]
  constructor
  · rintro ⟨⟨key, home, file, lit⟩, member, passes⟩
    have sameKey : qualified = key := gateConstant_key files passes
    subst sameKey
    rw [mem_iff_lookup (nodup_litFirst files), lookup_litFirst] at member
    rcases (gateConstant_eq_some_iff files qualified home file lit entry).mp passes with
      ⟨once, noOverride, noClass, homeEq, fileEq, litEq⟩
    rw [litWrites_eq] at once
    constructor
    · cases all : located files qualified with
      | nil =>
          rw [all] at member
          contradiction
      | cons first rest =>
          rcases first with ⟨source, write⟩
          rw [all, firstWrite, Option.some.injEq, Prod.mk.injEq, Prod.mk.injEq] at member
          rw [all, List.length_cons] at once
          have restNil : rest = [] := List.length_eq_zero_iff.mp (by omega)
          subst restNil
          exact ⟨source, write, rfl, homeEq.trans member.1.symm, fileEq.trans member.2.1.symm,
            member.2.2.trans litEq⟩
    · exact noOverride
    · exact noClass
  · rintro ⟨⟨file, write, all, homeEq, fileEq, litEq⟩, noOverride, noClass⟩
    refine ⟨(qualified, write.1, file.key, some entry.lit), ?_, ?_⟩
    · rw [mem_iff_lookup (nodup_litFirst files), lookup_litFirst, all, firstWrite, litEq]
    · rw [gateConstant_eq_some_iff, litWrites_eq, all]
      exact ⟨Nat.one_lt_two, noOverride, noClass, homeEq, fileEq, rfl⟩

end Kept

end Rigor.Infer.Source
