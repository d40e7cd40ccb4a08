import Mathlib.Data.Finset.Basic
import Mathlib.Data.Finset.Lattice.Lemmas
import Rigor.Infer.Source.ConstantReads
import Rigor.Infer.Source.Merge

/-!
# The order of the files

Some fields of the merged index depend on the order of the files: the first superclass and the
order of the includes win.  The fields here do not.  The unions and the counts commute; a constant
is kept by a condition on the set of files; and a visibility is answered only where the files
agree, so that each file's own last write is all that counts.
-/

namespace Rigor.Infer.Source

open Rigor.Library
open Rigor.Library.Grouping
open Std (ExtTreeMap)

universe u v

variable {FileKey : Type u} {Refinement : Type v}

/-! ## Literal constants -/

section Constants

variable {files reordered : List (SourceFile FileKey)}

theorem Kept.of_perm {qualified : Path} {entry : HarvestedConst FileKey}
    (kept : Kept files qualified entry) (perm : files.Perm reordered) :
    Kept reordered qualified entry := by
  rcases kept with ⟨⟨file, write, all, recorded⟩, noOverride, noClass⟩
  have locatedPerm : (located files qualified).Perm (located reordered qualified) :=
    perm.flatMap_right _
  rw [all] at locatedPerm
  constructor
  · exact ⟨file, write, locatedPerm.singleton_eq.symm, recorded⟩
  · intro member
    exact noOverride ((perm.flatMap_right _).mem_iff.mpr member)
  · intro member
    exact noClass ((perm.flatMap_right _).mem_iff.mpr member)

theorem kept_perm_iff (perm : files.Perm reordered) (qualified : Path)
    (entry : HarvestedConst FileKey) :
    Kept files qualified entry ↔ Kept reordered qualified entry :=
  ⟨fun kept => kept.of_perm perm, fun kept => kept.of_perm perm.symm⟩

variable [DecidableEq FileKey]

theorem literalConstantEntry_of_perm (perm : files.Perm reordered) {name usePrefix : Path}
    {useFile : FileKey} {entry : HarvestedConst FileKey}
    (found : literalConstantEntry (qualifiedLiteralConstants files) name usePrefix useFile =
      some entry) :
    literalConstantEntry (qualifiedLiteralConstants reordered) name usePrefix useFile =
      some entry := by
  rcases innermost_of_literalConstantEntry files found with ⟨single, kept, innermost⟩
  have sameKept : (fun scope => KeptIn files useFile (scope ++ name)) =
      fun scope => KeptIn reordered useFile (scope ++ name) := by
    funext scope
    simp only [KeptIn, kept_perm_iff perm]
  rw [sameKept] at innermost
  rcases literalConstantEntry_of_innermost reordered single innermost with
    ⟨other, otherFound, sameHome⟩
  have otherKept := (innermost_of_literalConstantEntry reordered otherFound).2.1
  rw [sameHome] at otherKept
  rw [otherFound, otherKept.unique reordered (kept.of_perm perm)]

theorem literalConstant_perm (perm : files.Perm reordered) (name usePrefix : Path)
    (useFile : FileKey) :
    literalConstant (qualifiedLiteralConstants files) name usePrefix useFile =
      literalConstant (qualifiedLiteralConstants reordered) name usePrefix useFile := by
  have sameEntry : literalConstantEntry (qualifiedLiteralConstants files) name usePrefix useFile =
      literalConstantEntry (qualifiedLiteralConstants reordered) name usePrefix useFile := by
    apply Option.ext
    intro entry
    exact ⟨literalConstantEntry_of_perm perm, literalConstantEntry_of_perm perm.symm⟩
  rw [literalConstant, literalConstant, sameEntry]

theorem qualifiedLiteralConstant_perm (perm : files.Perm reordered) (name usePrefix : Path)
    (useFile : FileKey) :
    qualifiedLiteralConstant (qualifiedLiteralConstants files) name usePrefix useFile =
      qualifiedLiteralConstant (qualifiedLiteralConstants reordered) name usePrefix useFile := by
  have sameEntry :
      qualifiedLiteralConstantEntry (qualifiedLiteralConstants files) name usePrefix useFile =
        qualifiedLiteralConstantEntry (qualifiedLiteralConstants reordered) name usePrefix
          useFile := by
    apply Option.ext
    intro entry
    rw [qualifiedLiteralConstantEntry_eq_some_iff, qualifiedLiteralConstantEntry_eq_some_iff]
    simp only [kept_perm_iff perm]
  rw [qualifiedLiteralConstant, qualifiedLiteralConstant, sameEntry]

end Constants

/-! ## Counts -/

section Counts

variable {κ : Type} [BEq κ] [LawfulBEq κ] {keys reordered : List κ}

theorem lookup_countAll_perm (perm : keys.Perm reordered) (sought : κ) :
    (countAll keys).lookup sought = (countAll reordered).lookup sought := by
  rw [countAll, countAll, lookup_foldl_upsert, lookup_foldl_upsert]
  exact (perm.filter _).foldl_eq' (fun _ _ _ _ _ => rfl) _

theorem mem_countAll_perm (perm : keys.Perm reordered) (item : κ × Nat) :
    item ∈ countAll keys ↔ item ∈ countAll reordered := by
  have nodup : ∀ keys : List κ, ((countAll keys).map Prod.fst).Nodup := fun keys =>
    nodup_foldl_upsert _ _ _ keys List.nodup_nil
  rcases item with ⟨key, count⟩
  rw [mem_iff_lookup (nodup keys), mem_iff_lookup (nodup reordered), lookup_countAll_perm perm]

end Counts

section Unions

variable {files reordered : List (ProjectFile FileKey Refinement)}

theorem toplevelNames_perm (perm : files.Perm reordered) :
    toplevelNames files = toplevelNames reordered :=
  perm.foldl_eq' (fun _ _ _ _ names => Finset.union_right_comm names _ _) ∅

theorem discoveredMethods_perm (perm : files.Perm reordered) :
    discoveredMethods files = discoveredMethods reordered := by
  have macros : unionMacros files = unionMacros reordered :=
    Keyed.joinAll_perm (perm.flatMap_right _) ∅
  have defs : unionDefNames files = unionDefNames reordered :=
    Keyed.joinAll_perm (perm.flatMap_right _) ∅
  rw [discoveredMethods, discoveredMethods, macros, defs]

theorem toplevelDefs_perm (perm : files.Perm reordered) :
    toplevelDefs files = toplevelDefs reordered := by
  rw [toplevelDefs, toplevelDefs, toplevelNames_perm perm, discoveredMethods_perm perm]

theorem mutatedParams_perm (perm : files.Perm reordered) :
    mutatedParams files = mutatedParams reordered :=
  Keyed.joinAll_perm (perm.flatMap_right _) ∅

theorem rebindNames_perm (perm : files.Perm reordered) :
    rebindNames files = rebindNames reordered := by
  have uncounted : (files.flatMap uncountedNames).toFinset =
      (reordered.flatMap uncountedNames).toFinset :=
    List.toFinset_eq_of_perm _ _ (perm.flatMap_right _)
  have repeated : (((censusSlots files).filter (1 < ·.2)).map (·.1.1)).toFinset =
      (((censusSlots reordered).filter (1 < ·.2)).map (·.1.1)).toFinset := by
    ext name
    simp only [List.mem_toFinset, List.mem_map, List.mem_filter, censusSlots,
      mem_countAll_perm (perm.flatMap_right _)]
  rw [rebindNames, rebindNames, uncounted, repeated]

theorem lookup_floorCalleeNames_perm (perm : files.Perm reordered) (name : Text) :
    (floorCalleeNames files).lookup name = (floorCalleeNames reordered).lookup name :=
  lookup_countAll_perm (perm.flatMap_right _) name

theorem floorMethodMissing_perm (perm : files.Perm reordered) :
    floorMethodMissing files = floorMethodMissing reordered := by
  rw [Bool.eq_iff_iff, floorMethodMissing, floorMethodMissing, List.any_eq_true, List.any_eq_true]
  simp only [perm.mem_iff]

end Unions

/-! ## Definers -/

section Definers

theorem toFinset_pushNew (held : List Text) (name : Text) :
    (pushNew held name).toFinset = insert name held.toFinset := by
  rw [pushNew]
  split
  next present =>
      have member : name ∈ held.toFinset :=
        List.mem_toFinset.mpr (List.contains_iff_mem.mp present)
      exact (Finset.insert_eq_of_mem member).symm
  · rw [List.toFinset_append, List.toFinset_cons, List.toFinset_nil, insert_empty_eq,
      Finset.union_comm, Finset.insert_eq]

theorem toFinset_foldl_pushNew (keys : List MethodKey) (held : List Text) :
    (keys.foldl (fun owners key => pushNew owners key.1) held).toFinset =
      held.toFinset ∪ (keys.map Prod.fst).toFinset := by
  induction keys generalizing held with
  | nil => simp
  | cons key rest ih =>
      rw [List.foldl_cons, ih, toFinset_pushNew, List.map_cons, List.toFinset_cons,
        Finset.insert_union, Finset.union_insert]

theorem definerSet_invertDefiners (keys : List MethodKey) (method : Text) (kind : DefKind) :
    ((invertDefiners keys).lookup (method, kind)).map List.toFinset =
      if keys.filter (fun key => key.2 == (method, kind)) = [] then none
      else some ((keys.filter fun key => key.2 == (method, kind)).map Prod.fst).toFinset := by
  rw [invertDefiners, lookup_foldl_upsert,
    foldl_some_getD fun (key : MethodKey) owners => pushNew owners key.1]
  split
  · rfl
  · rw [Option.map_some, toFinset_foldl_pushNew, List.lookup_nil, Option.getD_none,
      List.toFinset_nil, Finset.empty_union]

/-- The definers of a method depend on the set of the keys. -/
theorem definerSet_congr {keys others : List MethodKey}
    (same : ∀ key, key ∈ keys ↔ key ∈ others) (method : Text) (kind : DefKind) :
    ((invertDefiners keys).lookup (method, kind)).map List.toFinset =
      ((invertDefiners others).lookup (method, kind)).map List.toFinset := by
  have sameMethod : ∀ key, key ∈ keys.filter (fun key => key.2 == (method, kind)) ↔
      key ∈ others.filter (fun key => key.2 == (method, kind)) := by
    intro key
    rw [List.mem_filter, List.mem_filter, same]
  have sameEmpty : keys.filter (fun key => key.2 == (method, kind)) = [] ↔
      others.filter (fun key => key.2 == (method, kind)) = [] := by
    rw [List.eq_nil_iff_forall_not_mem, List.eq_nil_iff_forall_not_mem]
    simp only [sameMethod]
  rw [definerSet_invertDefiners, definerSet_invertDefiners]
  by_cases empty : keys.filter (fun key => key.2 == (method, kind)) = []
  · rw [if_pos empty, if_pos (sameEmpty.mp empty)]
  · rw [if_neg empty, if_neg (mt sameEmpty.mpr empty), Option.some.injEq]
    ext owner
    simp only [List.mem_toFinset, List.mem_map, sameMethod]

theorem definers_perm {files reordered : List (ProjectFile FileKey Refinement)}
    (perm : files.Perm reordered) (method : Text) (kind : DefKind) :
    ((definers files).lookup (method, kind)).map List.toFinset =
      ((definers reordered).lookup (method, kind)).map List.toFinset := by
  apply definerSet_congr
  intro key
  rw [List.mem_eraseDups, List.mem_eraseDups]
  exact (perm.flatMap_right _).mem_iff

end Definers

/-! ## Visibilities -/

section Visibilities

/-- The slot writes of a file to one class, in order: the method and the value. -/
def fileWrites (file : ProjectFile FileKey Refinement) (className : Path) :
    List (Text × Visibility) :=
  (file.overrideRows.filter (·.qualified == className)).flatMap fun row =>
    row.visibilityRemarks ++ row.methodVisibilities

/-- The value that the file's last write leaves in the slot. -/
def finalVisibility (file : ProjectFile FileKey Refinement) (className : Path) (method : Text) :
    Option Visibility :=
  ((fileWrites file className).filter (·.1 == method)).getLast?.map Prod.snd

/-- Some body of the class in the file defines the slot. -/
def DefinesSlot (file : ProjectFile FileKey Refinement) (className : Path) (method : Text) : Prop :=
  ∃ row ∈ file.overrideRows, row.qualified = className ∧
    ∃ visibility, (method, visibility) ∈ row.methodVisibilities

/-! ### One table -/

theorem fileVisibilities_foldl_writeSlot (writes : List SlotWrite) (tables : VisibilityTables) :
    (writes.foldl writeSlot tables).fileVisibilities =
      writes.foldl
        (fun slots write =>
          upsert write.method [] (upsert write.file write.visibility fun _ => write.visibility)
            slots) tables.fileVisibilities := by
  induction writes generalizing tables with
  | nil => rfl
  | cons write rest ih => exact ih (writeSlot tables write)

/-- A slot of the class is there once some write defines it. -/
theorem isSome_methodVisibilities_foldl_writeSlot (writes : List SlotWrite)
    (tables : VisibilityTables) (method : Text) :
    ((writes.foldl writeSlot tables).methodVisibilities.lookup method).isSome ↔
      (tables.methodVisibilities.lookup method).isSome ∨
        ∃ write ∈ writes, write.method = method ∧ write.defines = true := by
  induction writes generalizing tables with
  | nil => simp
  | cons write rest ih =>
      simp only [List.foldl_cons, ih, List.mem_cons, exists_eq_or_imp]
      have stepped : ((writeSlot tables write).methodVisibilities.lookup method).isSome ↔
          (tables.methodVisibilities.lookup method).isSome ∨
            write.method = method ∧ write.defines = true := by
        rw [writeSlot]
        by_cases own : method = write.method
        · subst own
          cases defines : write.defines <;>
            cases held : tables.methodVisibilities.lookup write.method <;>
            simp [held, lookup_upsert]
        · have other : (method == write.method) = false := beq_eq_false_iff_ne.mpr own
          have notOwn : ¬ write.method = method := fun same => own same.symm
          split <;> simp [lookup_upsert, other, notOwn]
      rw [stepped, or_assoc]

/-- What the writes of one slot leave for a file. -/
theorem lookup_perFile (writes : List SlotWrite) (file : Nat) (perFile : List (Nat × Visibility)) :
    (writes.foldl
        (fun perFile write => upsert write.file write.visibility (fun _ => write.visibility) perFile)
        perFile).lookup file =
      (((writes.filter (·.file == file)).getLast?).map (·.visibility)).or (perFile.lookup file) := by
  rw [lookup_foldl_upsert SlotWrite.file SlotWrite.visibility fun write _ => write.visibility]
  induction writes.filter (·.file == file) using List.reverseRecOn with
  | nil => rfl
  | append_singleton earlier last ih => simp

/-! ### The table of a class -/

/-- The slot writes of the project to one class, in the order of the replay. -/
def classWrites (files : List (ProjectFile FileKey Refinement)) (className : Path) :
    List SlotWrite :=
  ((overrideReplay files).filter (·.2.qualified == className)).flatMap fun item =>
    item.2.slotWrites item.1

theorem map_tables_foldl_ingest (items : List (Nat × OverrideRow Refinement))
    (old : Option (OverrideClass Refinement)) :
    (items.foldl
        (fun old item =>
          some (ingestOverrideRow item.1 item.2 (old.getD (freshOverrideClass item.2)))) old).map
        (·.toVisibilityTables) =
      if items = [] then old.map (·.toVisibilityTables)
      else some ((items.flatMap fun item => item.2.slotWrites item.1).foldl writeSlot
        ((old.map (·.toVisibilityTables)).getD noVisibilities)) := by
  induction items generalizing old with
  | nil => rfl
  | cons item rest ih =>
      have tables : (ingestOverrideRow item.1 item.2
          (old.getD (freshOverrideClass item.2))).toVisibilityTables =
            (item.2.slotWrites item.1).foldl writeSlot
              ((old.map (·.toVisibilityTables)).getD noVisibilities) := by
        cases old <;> rfl
      rw [List.foldl_cons, ih, if_neg (List.cons_ne_nil item rest), List.flatMap_cons,
        List.foldl_append, Option.map_some, Option.getD_some, tables]
      split
      next last => rw [last, List.flatMap_nil, List.foldl_nil]
      · rfl

/-- The answer for a slot reads the writes of the class and nothing else. -/
theorem methodVisibility_merge (files : List (ProjectFile FileKey Refinement)) (className : Path)
    (method : Text) :
    (merge files).methodVisibility className method =
      ((classWrites files className).foldl writeSlot noVisibilities).settled method := by
  have throughTables : ∀ entry : Option (OverrideClass Refinement),
      (entry.bind fun entry => entry.settled method) =
        (entry.map (·.toVisibilityTables)).bind (·.settled method) := by
    intro entry
    cases entry <;> rfl
  rw [SourceIndex.methodVisibility, merge, overrideIndex, lookup_foldl_upsert, List.lookup_nil,
    throughTables, map_tables_foldl_ingest, classWrites]
  split
  next noRow =>
      rw [noRow]
      rfl
  · rfl

/-- A slot is answered if it is defined and all files agree on it. -/
theorem settled_eq_some_iff {tables : VisibilityTables} {method : Text} {visibility : Visibility} :
    tables.settled method = some visibility ↔
      (tables.methodVisibilities.lookup method).isSome ∧
        ∃ perFile, tables.fileVisibilities.lookup method = some perFile ∧ perFile ≠ [] ∧
          ∀ item ∈ perFile, item.2 = visibility := by
  rw [VisibilityTables.settled]
  cases tables.methodVisibilities.lookup method with
  | none => simp
  | some defined =>
      cases tables.fileVisibilities.lookup method with
      | none => simp
      | some perFile =>
          cases perFile with
          | nil => simp
          | cons first rest =>
              simp only [List.map_cons, Option.ite_none_right_eq_some, Option.some.injEq,
                List.all_eq_true, List.mem_map, forall_exists_index, and_imp,
                forall_apply_eq_imp_iff₂, beq_iff_eq, Option.isSome_some, true_and,
                exists_eq_left', List.mem_cons, ne_eq, reduceCtorEq, not_false_eq_true,
                forall_eq_or_imp]
              constructor
              · rintro ⟨agree, rfl⟩
                exact ⟨rfl, agree⟩
              · rintro ⟨rfl, agree⟩
                exact ⟨agree, rfl⟩

/-- The writes of a file to the class, under the file's position. -/
def fileSlotWrites (file : ProjectFile FileKey Refinement) (position : Nat) (className : Path) :
    List SlotWrite :=
  (file.overrideRows.filter (·.qualified == className)).flatMap (·.slotWrites position)

theorem classWrites_eq (files : List (ProjectFile FileKey Refinement)) (className : Path) :
    classWrites files className =
      files.zipIdx.flatMap fun file => fileSlotWrites file.1 file.2 className := by
  rw [classWrites, overrideReplay, List.filter_flatMap, List.flatMap_assoc]
  congr 1
  funext file
  rw [fileSlotWrites, List.filter_map, List.flatMap_map]
  rfl

theorem file_of_mem_fileSlotWrites {file : ProjectFile FileKey Refinement} {position : Nat}
    {className : Path} {write : SlotWrite}
    (member : write ∈ fileSlotWrites file position className) : write.file = position := by
  rcases List.mem_flatMap.mp member with ⟨row, -, inRow⟩
  rcases List.mem_append.mp inRow with remark | recorded
  · rcases List.mem_map.mp remark with ⟨mark, -, rfl⟩
    rfl
  · rcases List.mem_map.mp recorded with ⟨mark, -, rfl⟩
    rfl

theorem map_fileSlotWrites (file : ProjectFile FileKey Refinement) (position : Nat)
    (className : Path) :
    (fileSlotWrites file position className).map (fun write => (write.method, write.visibility)) =
      fileWrites file className := by
  rw [fileSlotWrites, fileWrites, List.map_flatMap]
  congr 1
  funext row
  simp [OverrideRow.slotWrites, Function.comp_def]

/-- The writes with a position are those of the file at that position. -/
theorem filter_file_zipIdx (files : List (ProjectFile FileKey Refinement)) (className : Path)
    (start position : Nat) :
    ((files.zipIdx start).flatMap fun file => fileSlotWrites file.1 file.2 className).filter
        (·.file == position) =
      if start ≤ position then
        ((files[position - start]?).map (fileSlotWrites · position className)).getD []
      else [] := by
  induction files generalizing start with
  | nil => simp
  | cons file files ih =>
      rw [List.zipIdx_cons, List.flatMap_cons, List.filter_append, ih]
      by_cases here : start = position
      · subst here
        have own : (fileSlotWrites file start className).filter (·.file == start) =
            fileSlotWrites file start className := by
          rw [List.filter_eq_self]
          intro write member
          exact beq_iff_eq.mpr (file_of_mem_fileSlotWrites member)
        have past : ¬ start + 1 ≤ start := Nat.not_succ_le_self start
        simp [own, past]
      · have none_ : (fileSlotWrites file start className).filter (·.file == position) = [] := by
          rw [List.filter_eq_nil_iff]
          intro write member same
          exact here ((file_of_mem_fileSlotWrites member).symm.trans (beq_iff_eq.mp same))
        rw [none_, List.nil_append]
        by_cases later : start ≤ position
        · have strictly : start + 1 ≤ position := by omega
          have shifted : position - start = (position - (start + 1)) + 1 := by omega
          rw [if_pos strictly, if_pos later, shifted, List.getElem?_cons_succ]
        · have notStrictly : ¬ start + 1 ≤ position := by omega
          rw [if_neg notStrictly, if_neg later]

/-- What the files leave in a slot: each its own last write. -/
theorem mem_perFile_iff (files : List (ProjectFile FileKey Refinement)) (className : Path)
    (method : Text) (position : Nat) (visibility : Visibility) :
    (position, visibility) ∈ ((classWrites files className).filter (·.method == method)).foldl
        (fun perFile write => upsert write.file write.visibility (fun _ => write.visibility) perFile)
        [] ↔
      ∃ file, files[position]? = some file ∧
        finalVisibility file className method = some visibility := by
  have empty : (([] : List (Nat × Visibility)).map Prod.fst).Nodup := List.nodup_nil
  rw [mem_iff_lookup (nodup_foldl_upsert SlotWrite.file SlotWrite.visibility
      (fun write _ => write.visibility) _ empty),
    lookup_perFile, List.lookup_nil, Option.or_none, List.filter_comm, classWrites_eq,
    filter_file_zipIdx, if_pos (Nat.zero_le position), Nat.sub_zero]
  cases files[position]? with
  | none => simp
  | some file =>
      have last : (((fileSlotWrites file position className).filter
          (·.method == method)).getLast?).map (·.visibility) =
            finalVisibility file className method := by
        rw [finalVisibility, ← map_fileSlotWrites file position, List.filter_map,
          List.getLast?_map, Option.map_map]
        rfl
      rw [Option.map_some, Option.getD_some, last]
      simp

theorem exists_defining_write_iff (files : List (ProjectFile FileKey Refinement))
    (className : Path) (method : Text) :
    (∃ write ∈ classWrites files className, write.method = method ∧ write.defines = true) ↔
      ∃ file ∈ files, DefinesSlot file className method := by
  rw [classWrites_eq]
  constructor
  · rintro ⟨write, member, named, defines⟩
    rcases List.mem_flatMap.mp member with ⟨⟨file, position⟩, inFiles, inFile⟩
    rcases List.mem_flatMap.mp inFile with ⟨row, inRows, inRow⟩
    rcases List.mem_append.mp inRow with remark | recorded
    · rcases List.mem_map.mp remark with ⟨mark, -, rfl⟩
      contradiction
    · rcases List.mem_map.mp recorded with ⟨mark, inTable, rfl⟩
      have rowOf := List.mem_filter.mp inRows
      exact ⟨file, List.fst_mem_of_mem_zipIdx inFiles, row, rowOf.1, beq_iff_eq.mp rowOf.2,
        mark.2, named ▸ inTable⟩
  · rintro ⟨file, inFiles, row, inRows, named, visibility, inTable⟩
    rcases List.getElem?_of_mem inFiles with ⟨position, at_⟩
    refine ⟨⟨position, method, visibility, true⟩, ?_, rfl, rfl⟩
    apply List.mem_flatMap.mpr
    refine ⟨(file, position), List.mk_mem_zipIdx_iff_getElem?.mpr at_, ?_⟩
    apply List.mem_flatMap.mpr
    refine ⟨row, List.mem_filter.mpr ⟨inRows, beq_iff_eq.mpr named⟩, ?_⟩
    exact List.mem_append_right _ (List.mem_map.mpr ⟨(method, visibility), inTable, rfl⟩)

theorem DefinesSlot.final {file : ProjectFile FileKey Refinement} {className : Path} {method : Text}
    (defines : DefinesSlot file className method) :
    ∃ final, finalVisibility file className method = some final := by
  rcases defines with ⟨row, inRows, named, visibility, inTable⟩
  have member : (method, visibility) ∈
      (fileWrites file className).filter (·.1 == method) := by
    rw [List.mem_filter, fileWrites, List.mem_flatMap]
    exact ⟨⟨row, List.mem_filter.mpr ⟨inRows, beq_iff_eq.mpr named⟩,
      List.mem_append_right _ inTable⟩, beq_self_eq_true method⟩
  rw [finalVisibility, List.getLast?_eq_some_getLast (List.ne_nil_of_mem member), Option.map_some]
  exact ⟨_, rfl⟩

/-- A visibility is answered exactly if some body of the class defines the method and every file
that writes the slot leaves that value. -/
theorem methodVisibility_eq_some_iff (files : List (ProjectFile FileKey Refinement))
    (className : Path) (method : Text) (visibility : Visibility) :
    (merge files).methodVisibility className method = some visibility ↔
      (∃ file ∈ files, DefinesSlot file className method) ∧
        ∀ file ∈ files, ∀ final, finalVisibility file className method = some final →
          final = visibility := by
  rw [methodVisibility_merge, settled_eq_some_iff, isSome_methodVisibilities_foldl_writeSlot,
    exists_defining_write_iff, fileVisibilities_foldl_writeSlot,
    lookup_foldl_upsert SlotWrite.method (fun _ => []) fun write =>
      upsert write.file write.visibility fun _ => write.visibility,
    foldl_some_getD fun (write : SlotWrite) perFile =>
      upsert write.file write.visibility (fun _ => write.visibility) perFile]
  have noSlot : noVisibilities.methodVisibilities.lookup method = none := rfl
  have noFile : noVisibilities.fileVisibilities.lookup method = none := rfl
  rw [noSlot, noFile, Option.isSome_none, Option.getD_none]
  simp only [Bool.false_eq_true, false_or]
  apply and_congr_right
  intro defined
  have written : (classWrites files className).filter (·.method == method) ≠ [] := by
    rcases (exists_defining_write_iff files className method).mpr defined with
      ⟨write, member, named, -⟩
    exact List.ne_nil_of_mem (List.mem_filter.mpr ⟨member, beq_iff_eq.mpr named⟩)
  rw [if_neg written]
  constructor
  · rintro ⟨perFile, held, -, agree⟩ file inFiles final isFinal
    rcases List.getElem?_of_mem inFiles with ⟨position, at_⟩
    apply agree (position, final)
    rw [← Option.some.inj held, mem_perFile_iff]
    exact ⟨file, at_, isFinal⟩
  · intro agree
    refine ⟨_, rfl, ?_, ?_⟩
    · rcases defined with ⟨file, inFiles, defines⟩
      rcases defines.final with ⟨final, isFinal⟩
      rcases List.getElem?_of_mem inFiles with ⟨position, at_⟩
      exact List.ne_nil_of_mem
        ((mem_perFile_iff files className method position final).mpr ⟨file, at_, isFinal⟩)
    · rintro ⟨position, final⟩ member
      rcases (mem_perFile_iff files className method position final).mp member with
        ⟨file, at_, isFinal⟩
      exact agree file (List.mem_of_getElem? at_) final isFinal

theorem methodVisibility_perm {files reordered : List (ProjectFile FileKey Refinement)}
    (perm : files.Perm reordered) (className : Path) (method : Text) :
    (merge files).methodVisibility className method =
      (merge reordered).methodVisibility className method := by
  apply Option.ext
  intro visibility
  rw [methodVisibility_eq_some_iff, methodVisibility_eq_some_iff]
  simp only [perm.mem_iff]

end Visibilities

/-! ## The merge -/

section Replace

variable {α β : Type*} (front back : List α) {item again : α}

theorem flatMap_replace (f : α → List β) (same : f item = f again) :
    (front ++ item :: back).flatMap f = (front ++ again :: back).flatMap f := by
  rw [List.flatMap_append, List.flatMap_append, List.flatMap_cons, List.flatMap_cons, same]

theorem flatMap_replace_perm (f : α → List β) (perm : (f item).Perm (f again)) :
    ((front ++ item :: back).flatMap f).Perm ((front ++ again :: back).flatMap f) := by
  rw [List.flatMap_append, List.flatMap_append, List.flatMap_cons, List.flatMap_cons]
  exact (perm.append_right _).append_left _

end Replace

theorem overrideReplay_eq (files : List (ProjectFile FileKey Refinement)) :
    overrideReplay files =
      (files.map (·.overrideRows)).zipIdx.flatMap fun file => file.1.map fun row => (file.2, row) := by
  rw [overrideReplay, List.zipIdx_map, List.flatMap_map]
  rfl

/-- The harvest of the same file, computed again: its hash maps may list their entries in another
order. -/
structure Recomputed (file again : ProjectFile FileKey Refinement) : Prop where
  source : again.toSourceFile = file.toSourceFile
  overrideRows : again.overrideRows = file.overrideRows
  toplevelDefs : again.toplevelDefs = file.toplevelDefs
  macroMethods : file.macroMethods.Perm again.macroMethods
  defNames : file.defNames.Perm again.defNames
  mutatedParams : file.mutatedParams.Perm again.mutatedParams
  rebindDefs : again.rebindDefs = file.rebindDefs
  bodiless : again.bodiless = file.bodiless
  foldDefs : again.foldDefs = file.foldDefs

/-- Computing the harvest of a file again changes nothing. -/
theorem merge_recomputed (front back : List (ProjectFile FileKey Refinement))
    {file again : ProjectFile FileKey Refinement} (recomputed : Recomputed file again) :
    merge (front ++ file :: back) = merge (front ++ again :: back) := by
  have replay : overrideReplay (front ++ file :: back) = overrideReplay (front ++ again :: back) := by
    rw [overrideReplay_eq, overrideReplay_eq, List.map_append, List.map_append, List.map_cons,
      List.map_cons, recomputed.overrideRows]
  have names : toplevelNames (front ++ file :: back) = toplevelNames (front ++ again :: back) := by
    rw [toplevelNames, toplevelNames, List.foldl_append, List.foldl_append, List.foldl_cons,
      List.foldl_cons, recomputed.toplevelDefs]
  have macros : unionMacros (front ++ file :: back) = unionMacros (front ++ again :: back) :=
    Keyed.joinAll_perm (flatMap_replace_perm front back _ recomputed.macroMethods) ∅
  have defs : unionDefNames (front ++ file :: back) = unionDefNames (front ++ again :: back) :=
    Keyed.joinAll_perm (flatMap_replace_perm front back _ recomputed.defNames) ∅
  have discovered : discoveredMethods (front ++ file :: back) =
      discoveredMethods (front ++ again :: back) := by
    rw [discoveredMethods, discoveredMethods, macros, defs]
  have params : mutatedParams (front ++ file :: back) = mutatedParams (front ++ again :: back) :=
    Keyed.joinAll_perm (flatMap_replace_perm front back _ recomputed.mutatedParams) ∅
  have slots : censusSlots (front ++ file :: back) = censusSlots (front ++ again :: back) := by
    rw [censusSlots, censusSlots]
    congr 1
    apply flatMap_replace
    rw [recomputed.rebindDefs]
  have uncounted : (front ++ file :: back).flatMap uncountedNames =
      (front ++ again :: back).flatMap uncountedNames := by
    apply flatMap_replace
    rw [uncountedNames, uncountedNames, recomputed.rebindDefs, recomputed.bodiless]
  have floor : floorCalleeNames (front ++ file :: back) =
      floorCalleeNames (front ++ again :: back) := by
    rw [floorCalleeNames, floorCalleeNames]
    congr 1
    apply flatMap_replace
    rw [recomputed.rebindDefs, recomputed.bodiless]
  have missing : floorMethodMissing (front ++ file :: back) =
      floorMethodMissing (front ++ again :: back) := by
    rw [floorMethodMissing, floorMethodMissing, List.any_append, List.any_append, List.any_cons,
      List.any_cons, recomputed.rebindDefs]
  have inverted : definers (front ++ file :: back) = definers (front ++ again :: back) := by
    rw [definers, definers]
    congr 2
    apply flatMap_replace
    rw [recomputed.foldDefs]
  have sources : (front ++ file :: back).map (·.toSourceFile) =
      (front ++ again :: back).map (·.toSourceFile) := by
    rw [List.map_append, List.map_append, List.map_cons, List.map_cons, recomputed.source]
  rw [merge, merge, overrideIndex, overrideIndex, replay, rebindNames, rebindNames, uncounted, slots,
    floor, missing, discovered, toplevelDefs, toplevelDefs, names, discovered, params, sources,
    inverted]

section Order

variable [DecidableEq FileKey]

/-- Two indexes agree on everything that may not depend on the order of the files. -/
structure SameOrderFree (one two : SourceIndex FileKey Refinement) : Prop where
  toplevelDefs : one.toplevelDefs = two.toplevelDefs
  discoveredMethods : one.discoveredMethods = two.discoveredMethods
  rebindNames : one.rebindNames = two.rebindNames
  floorCalleeNames : ∀ name, one.floorCalleeNames.lookup name = two.floorCalleeNames.lookup name
  floorMethodMissing : one.floorMethodMissing = two.floorMethodMissing
  mutatedParams : one.mutatedParams = two.mutatedParams
  definers : ∀ method kind, one.definerSet method kind = two.definerSet method kind
  literals : ∀ name usePrefix useFile,
    literalConstant one.literalConstants name usePrefix useFile =
      literalConstant two.literalConstants name usePrefix useFile
  qualifiedLiterals : ∀ name usePrefix useFile,
    qualifiedLiteralConstant one.literalConstants name usePrefix useFile =
      qualifiedLiteralConstant two.literalConstants name usePrefix useFile
  visibilities : ∀ className method,
    one.methodVisibility className method = two.methodVisibility className method

theorem merge_perm {files reordered : List (ProjectFile FileKey Refinement)}
    (perm : files.Perm reordered) : SameOrderFree (merge files) (merge reordered) where
  toplevelDefs := toplevelDefs_perm perm
  discoveredMethods := discoveredMethods_perm perm
  rebindNames := rebindNames_perm perm
  floorCalleeNames := lookup_floorCalleeNames_perm perm
  floorMethodMissing := floorMethodMissing_perm perm
  mutatedParams := mutatedParams_perm perm
  definers := definers_perm perm
  literals := literalConstant_perm (perm.map _)
  qualifiedLiterals := qualifiedLiteralConstant_perm (perm.map _)
  visibilities := methodVisibility_perm perm

/-- The order-free half of the merge, and its dependence on the harvests alone. -/
theorem merge_orderFree (files : List (ProjectFile FileKey Refinement)) :
    (∀ reordered, files.Perm reordered → SameOrderFree (merge files) (merge reordered)) ∧
      ∀ front file again back, files = front ++ file :: back → Recomputed file again →
        merge files = merge (front ++ again :: back) := by
  constructor
  · intro reordered perm
    exact merge_perm perm
  · rintro front file again back rfl recomputed
    exact merge_recomputed front back recomputed

/-- A file that reopens `C` with one method and a macro name of `C` and of `D`. -/
def reopening (key : Text) (visibility : Visibility) (macroMethods : List (Text × Finset Text)) :
    ProjectFile Text Unit where
  key := key
  root := .statements [.classDef ["C".toList] []]
  constMutations := []
  overrideRows := [⟨["C".toList], none, ["m".toList], [("m".toList, visibility)], [], [], [], false,
    []⟩]
  qualified_overrideRows := rfl
  toplevelDefs := ∅
  macroMethods := macroMethods
  defNames := [("C".toList, {"m".toList})]
  mutatedParams := []
  rebindDefs := [⟨"m".toList, some ("C".toList, false), false⟩]
  bodiless := []
  foldDefs := []

theorem merge_orderFree_reopenings :
    SameOrderFree
        (merge [reopening "a.rb".toList .isPublic [("C".toList, {"x".toList}), ("D".toList, ∅)],
          reopening "b.rb".toList .isPrivate []])
        (merge [reopening "b.rb".toList .isPrivate [],
          reopening "a.rb".toList .isPublic [("C".toList, {"x".toList}), ("D".toList, ∅)]]) ∧
      merge [reopening "a.rb".toList .isPublic [("C".toList, {"x".toList}), ("D".toList, ∅)],
          reopening "b.rb".toList .isPrivate []] =
        merge [reopening "a.rb".toList .isPublic [("D".toList, ∅), ("C".toList, {"x".toList})],
          reopening "b.rb".toList .isPrivate []] := by
  constructor
  · exact (merge_orderFree _).1 _ (List.Perm.swap _ _ [])
  · apply (merge_orderFree _).2 [] _ _ _ rfl
    exact ⟨rfl, rfl, rfl, List.Perm.swap _ _ [], List.Perm.refl _, List.Perm.refl _, rfl, rfl, rfl⟩

end Order

end Rigor.Infer.Source
