import Rigor.Cli.Effects.Summary

/-!
# The effects report of a run

Every file contributes the units its scan files; the contributions for one method
are joined over the run, and the report resolves the pending edges against the
selectors of all the methods it has collected.  The report does not depend on the
order of the files nor on which of them holds which reopening, and a further file
only adds labels and taint.
-/

namespace Rigor.Cli.Effects

open Std Rigor.Library

/-- `{method key => summary}`. -/
abbrev Units := ExtTreeMap Text Summary Text.cmp

/-- `scan`: the units of one file, each filed by `merge_unit`. -/
def scan (units : List (Text × Summary)) : Units :=
  Keyed.joinAll ∅ units

/-- The loop over the files of a run. -/
def merged (files : List Units) : Units :=
  files.foldl Keyed.join ∅

/-- The selectors of the methods collected. -/
def runSelectors (units : Units) : LabelSet :=
  ExtTreeSet.ofList (units.keys.map selectorOf) _

/-- One method's row of the report. -/
structure Row where
  key : Text
  effects : List Text
  exhaustive : Bool
  causes : List Cause
  direct : ExtTreeMap Text LabelSet Text.cmp

/-- `trivial`: exhaustive, and no effect but frame-local mutation. -/
def Row.isTrivial (row : Row) : Bool :=
  row.exhaustive && row.effects.all fun label => label = mutateLocal

def rowOf (selectors : LabelSet) (plugins : Bool) (key : Text) (summary : Summary) : Row :=
  let causes := summary.causesFor selectors
  { key := key
    effects := summary.proven
    exhaustive := !plugins && summary.exhaustive selectors
    causes := if plugins && causes.isEmpty then causes ++ [(pluginAttribution, none)] else causes
    direct := summary.bundles }

/-- `report_rows`. -/
def reportRows (files : List Units) (full plugins : Bool) : List Row :=
  let units := merged files
  let rows := units.toList.map fun item => rowOf (runSelectors units) plugins item.1 item.2
  rows.filter fun row => full || !row.isTrivial

/-! ## Merging -/

theorem join_scan (units : Units) (contributions : List (Text × Summary)) :
    Keyed.join units (scan contributions) = Keyed.joinAll units contributions := by
  rw [Keyed.joinAll_eq_sup]
  rfl

/-- The units of a run are those of all its contributions together. -/
theorem merged_scan (files : List (List (Text × Summary))) :
    merged (files.map scan) = scan files.flatten := by
  have general : ∀ units : Units,
      (files.map scan).foldl Keyed.join units = Keyed.joinAll units files.flatten := by
    induction files with
    | nil => exact fun _ => rfl
    | cons file files ih =>
        intro units
        rw [List.map_cons, List.foldl_cons, ih, join_scan, List.flatten_cons,
          Keyed.joinAll_append]
  exact general ∅

theorem merged_perm {files regrouped : List (List (Text × Summary))}
    (perm : files.flatten.Perm regrouped.flatten) :
    merged (files.map scan) = merged (regrouped.map scan) := by
  rw [merged_scan, merged_scan]
  exact Keyed.joinAll_perm perm ∅

theorem merged_le (files : List Units) (file : Units) :
    merged files ≤ merged (files ++ [file]) := by
  have appended : merged (files ++ [file]) = merged files ⊔ file := by
    rw [merged, List.foldl_append]
    rfl
  rw [appended]
  exact le_sup_left

theorem runSelectors_mono {units grown : Units} (le : units ≤ grown) :
    runSelectors units ≤ runSelectors grown := by
  rw [OrderedSet.le_iff]
  intro selector mem
  rw [runSelectors, ExtTreeSet.mem_ofList, List.contains_eq_mem, decide_eq_true_eq,
    List.mem_map] at mem ⊢
  obtain ⟨key, mem, rfl⟩ := mem
  refine ⟨key, ?_, rfl⟩
  rw [ExtTreeMap.mem_keys] at mem ⊢
  obtain ⟨larger, held, -⟩ := Keyed.getElem?_of_le le (ExtTreeMap.getElem?_eq_some_getElem mem)
  rw [ExtTreeMap.mem_iff_isSome_getElem?, held]
  rfl

/-! ## Rows -/

theorem mem_reportRows {files : List Units} {full plugins : Bool} {row : Row} :
    row ∈ reportRows files full plugins ↔
      (∃ summary, (merged files)[row.key]? = some summary ∧
        row = rowOf (runSelectors (merged files)) plugins row.key summary) ∧
      (full = true ∨ row.isTrivial = false) := by
  simp only [reportRows, List.mem_filter, List.mem_map, Bool.or_eq_true, Bool.not_eq_true',
    Prod.exists, ExtTreeMap.mem_toList_iff_getElem?_eq_some]
  constructor
  · rintro ⟨⟨key, summary, held, rfl⟩, shown⟩
    exact ⟨⟨summary, held, rfl⟩, shown⟩
  · rintro ⟨⟨summary, held, same⟩, shown⟩
    exact ⟨⟨row.key, summary, held, same.symm⟩, shown⟩

/-- A row lists a cause exactly when it is not exhaustive, plugins or not. -/
theorem causes_rowOf_eq_nil_iff (selectors : LabelSet) (plugins : Bool) (key : Text)
    (summary : Summary) :
    (rowOf selectors plugins key summary).causes = [] ↔
      (rowOf selectors plugins key summary).exhaustive = true := by
  cases plugins with
  | false => simpa [rowOf] using Summary.causesFor_eq_nil_iff
  | true => by_cases none : summary.causesFor selectors = [] <;> simp [rowOf, none]

/-- A row after its method and the selectors of the run have grown. -/
structure Row.Grows (row grown : Row) : Prop where
  key : grown.key = row.key
  effects : ∀ label ∈ row.effects, label ∈ grown.effects
  tainted : row.exhaustive = false → grown.exhaustive = false

theorem Row.Grows.isTrivial {row grown : Row} (grows : row.Grows grown)
    (shown : row.isTrivial = false) : grown.isTrivial = false := by
  by_contra dropped
  rw [Bool.not_eq_false, Row.isTrivial, Bool.and_eq_true, List.all_eq_true] at dropped
  have trivially : row.isTrivial = true := by
    rw [Row.isTrivial, Bool.and_eq_true, List.all_eq_true]
    constructor
    · by_contra tainted
      rw [Bool.not_eq_true] at tainted
      exact absurd dropped.1 (by simp [grows.tainted tainted])
    · exact fun label mem => dropped.2 label (grows.effects label mem)
  simp [trivially] at shown

theorem rowOf_grows {selectors wider : LabelSet} (grown : selectors ≤ wider) (plugins : Bool)
    (key : Text) {summary larger : Summary} (le : summary ≤ larger) :
    (rowOf selectors plugins key summary).Grows (rowOf wider plugins key larger) where
  key := rfl
  effects _ mem := Summary.proven_mono le mem
  tainted tainted := by
    by_contra exhaustive
    simp only [rowOf, Bool.not_eq_false, Bool.and_eq_true] at exhaustive
    have before := Summary.exhaustive_anti le grown exhaustive.2
    simp [rowOf, exhaustive.1, before] at tainted

/-- Scanning a further file keeps every row: its labels stay proven and a method that
was not exhaustive stays so. -/
theorem exists_row_grows {files : List Units} (file : Units) {full plugins : Bool} {row : Row}
    (mem : row ∈ reportRows files full plugins) :
    ∃ grown ∈ reportRows (files ++ [file]) full plugins, row.Grows grown := by
  obtain ⟨⟨summary, held, same⟩, shown⟩ := mem_reportRows.mp mem
  have le := merged_le files file
  obtain ⟨larger, heldLarger, summaryLe⟩ := Keyed.getElem?_of_le le held
  let grown := rowOf (runSelectors (merged (files ++ [file]))) plugins row.key larger
  have grows : row.Grows grown := by
    have both := rowOf_grows (runSelectors_mono le) plugins row.key summaryLe
    rwa [← same] at both
  refine ⟨grown, mem_reportRows.mpr ⟨⟨larger, heldLarger, rfl⟩, ?_⟩, grows⟩
  rcases shown with all | shown
  · exact Or.inl all
  · exact Or.inr (grows.isTrivial shown)

/-- A method has at most one row. -/
theorem row_eq_of_key_eq {files : List Units} {full plugins : Bool} {first second : Row}
    (firstMem : first ∈ reportRows files full plugins)
    (secondMem : second ∈ reportRows files full plugins) (same : first.key = second.key) :
    first = second := by
  obtain ⟨⟨summary, held, firstEq⟩, -⟩ := mem_reportRows.mp firstMem
  obtain ⟨⟨other, heldOther, secondEq⟩, -⟩ := mem_reportRows.mp secondMem
  rw [← same, held, Option.some.injEq] at heldOther
  rw [firstEq, secondEq, heldOther, same]

/-- Joining summaries is a join, its causes account for its taint, and the report of a
run grows with its files whatever their order and whichever file holds which reopening. -/
theorem summaries_join :
    (∀ a b : Summary, a.join b = b.join a) ∧
      (∀ a b c : Summary, (a.join b).join c = a.join (b.join c)) ∧
      (∀ a : Summary, a.join a = a) ∧
      (∀ (summary : Summary) (selectors : LabelSet),
        summary.causesFor selectors = [] ↔ summary.exhaustive selectors = true) ∧
      (∀ files regrouped : List (List (Text × Summary)), files.flatten.Perm regrouped.flatten →
        ∀ full plugins,
          reportRows (files.map scan) full plugins = reportRows (regrouped.map scan) full plugins) ∧
      (∀ (files : List Units) (file : Units) (full plugins : Bool),
        ∀ row ∈ reportRows files full plugins,
          ∃! grown, grown ∈ reportRows (files ++ [file]) full plugins ∧ row.Grows grown) := by
  refine ⟨sup_comm, sup_assoc, sup_idem, ?_, ?_, ?_⟩
  · exact fun summary selectors => Summary.causesFor_eq_nil_iff
  · intro files regrouped perm full plugins
    rw [reportRows, merged_perm perm, ← reportRows]
  · intro files file full plugins row mem
    obtain ⟨grown, grownMem, grows⟩ := exists_row_grows file mem
    refine ⟨grown, ⟨grownMem, grows⟩, ?_⟩
    rintro other ⟨otherMem, otherGrows⟩
    exact row_eq_of_key_eq otherMem grownMem (otherGrows.key.trans grows.key.symm)

end Rigor.Cli.Effects
