import Rigor.Library.KeyedJoin
import Rigor.Text

/-!
# Effect summaries of methods

A summary holds what one method does directly: its labels by origin, the causes that
taint it, and the selectors through which it may reach another method of the run.
The reopenings of a method are joined; which selectors name a method of the run is
known only once every file has been scanned.
-/

namespace Rigor.Cli.Effects

open Std Rigor.Library

abbrev LabelSet := ExtTreeSet Text Text.cmp

/-- A taint cause with its detail. -/
abbrev Cause := Text × Option Text

def Cause.cmp : Cause → Cause → Ordering :=
  compareLex (compareOn Prod.fst) (compareOn Prod.snd)

instance : TransCmp Cause.cmp :=
  inferInstanceAs (TransCmp (compareLex (compareOn Prod.fst) (compareOn Prod.snd)))

instance : LawfulEqCmp Cause.cmp where
  compare_self := ReflCmp.compare_self
  eq_of_compare {a b} same := by
    rw [Cause.cmp, compareLex_eq_eq] at same
    exact Prod.ext (LawfulEqCmp.eq_of_compare same.1) (LawfulEqCmp.eq_of_compare same.2)

def unresolvedSelfCall : Text := "unresolved-self-call".toList
def pluginAttribution : Text := "plugin-attribution".toList
def mutateLocal : Text := "mutate.local".toList

/-- One unit's direct summary. -/
structure Summary where
  bundles : ExtTreeMap Text LabelSet Text.cmp := ∅
  causes : ExtTreeSet Cause Cause.cmp := ∅
  edgeSelectors : LabelSet := ∅

namespace Summary

/-- Union per origin, per cause and per pending edge. -/
def join (summary other : Summary) : Summary where
  bundles := Keyed.join summary.bundles other.bundles
  causes := summary.causes ∪ other.causes
  edgeSelectors := summary.edgeSelectors ∪ other.edgeSelectors

/-- The labels of every origin, sorted and without duplicates. -/
def proven (summary : Summary) : List Text :=
  (summary.bundles.foldl (fun flat _ labels => flat ∪ labels) (∅ : LabelSet)).toList

/-- No producer fired and no call can carry taint in along an edge. -/
def exhaustive (summary : Summary) (selectors : LabelSet) : Bool :=
  summary.causes.isEmpty && (summary.edgeSelectors ∩ selectors).isEmpty

/-- The method `causes`: the recorded ones and those of the edges that name a
method of the run. -/
def causesFor (summary : Summary) (selectors : LabelSet) : List Cause :=
  ((summary.edgeSelectors ∩ selectors).foldl
    (fun causes selector => causes.insert (unresolvedSelfCall, some selector))
    summary.causes).toList

end Summary

/-- `selector_of`: what follows the first `#` or `.` of a unit key. -/
def selectorOf (key : Text) : Text :=
  match key.dropWhile fun c => !(c = '#' || c = '.') with
  | [] => key
  | _ :: selector => selector

/-! ## Summaries form a join semilattice -/

namespace Summary

@[ext]
theorem ext {a b : Summary} (bundles : a.bundles = b.bundles) (causes : a.causes = b.causes)
    (edges : a.edgeSelectors = b.edgeSelectors) : a = b := by
  cases a
  cases b
  simp_all

instance : Max Summary :=
  ⟨join⟩

@[simp]
theorem sup_bundles (a b : Summary) : (a ⊔ b).bundles = a.bundles ⊔ b.bundles :=
  rfl

@[simp]
theorem sup_causes (a b : Summary) : (a ⊔ b).causes = a.causes ⊔ b.causes :=
  rfl

@[simp]
theorem sup_edgeSelectors (a b : Summary) :
    (a ⊔ b).edgeSelectors = a.edgeSelectors ⊔ b.edgeSelectors :=
  rfl

instance : SemilatticeSup Summary :=
  SemilatticeSup.mk'
    (fun a b => by ext1 <;> simp [sup_comm])
    (fun a b c => by ext1 <;> simp [sup_assoc])
    (fun a => by ext1 <;> simp)

instance : OrderBot Summary where
  bot := {}
  bot_le a := by
    rw [← sup_eq_right]
    ext1
    · exact bot_sup_eq a.bundles
    · exact bot_sup_eq a.causes
    · exact bot_sup_eq a.edgeSelectors

theorem bundles_mono {a b : Summary} (le : a ≤ b) : a.bundles ≤ b.bundles := by
  rw [← sup_eq_right] at le ⊢
  exact congrArg bundles le

theorem causes_mono {a b : Summary} (le : a ≤ b) : a.causes ≤ b.causes := by
  rw [← sup_eq_right] at le ⊢
  exact congrArg causes le

theorem edgeSelectors_mono {a b : Summary} (le : a ≤ b) : a.edgeSelectors ≤ b.edgeSelectors := by
  rw [← sup_eq_right] at le ⊢
  exact congrArg edgeSelectors le

/-! ## What a summary answers -/

theorem mem_flat (items : List (Text × LabelSet)) (flat : LabelSet) (label : Text) :
    label ∈ items.foldl (fun flat item => flat ∪ item.2) flat ↔
      label ∈ flat ∨ ∃ item ∈ items, label ∈ item.2 := by
  induction items generalizing flat with
  | nil => simp
  | cons item items ih =>
      rw [List.foldl_cons, ih, ExtTreeSet.mem_union_iff, or_assoc]
      simp

/-- A label is proven when some origin carries it. -/
theorem mem_proven {summary : Summary} {label : Text} :
    label ∈ summary.proven ↔
      ∃ (origin : Text) (labels : LabelSet), summary.bundles[origin]? = some labels ∧ label ∈ labels := by
  rw [proven, ExtTreeSet.mem_toList, ExtTreeMap.foldl_eq_foldl_toList, mem_flat]
  simp [ExtTreeMap.mem_toList_iff_getElem?_eq_some]

theorem proven_mono {a b : Summary} (le : a ≤ b) {label : Text} (mem : label ∈ a.proven) :
    label ∈ b.proven := by
  obtain ⟨origin, labels, held, carried⟩ := mem_proven.mp mem
  obtain ⟨grown, heldGrown, larger⟩ := Keyed.getElem?_of_le (bundles_mono le) held
  exact mem_proven.mpr ⟨origin, grown, heldGrown, OrderedSet.le_iff.mp larger label carried⟩

theorem exhaustive_iff {summary : Summary} {selectors : LabelSet} :
    summary.exhaustive selectors = true ↔
      (∀ cause, cause ∉ summary.causes) ∧
        ∀ selector ∈ summary.edgeSelectors, selector ∉ selectors := by
  rw [exhaustive, Bool.and_eq_true, ExtTreeSet.isEmpty_iff, ExtTreeSet.isEmpty_iff,
    ExtTreeSet.eq_empty_iff_forall_not_mem, ExtTreeSet.eq_empty_iff_forall_not_mem]
  simp only [ExtTreeSet.mem_inter_iff, not_and]

/-- Taint only grows, with the summary and with the selectors of the run. -/
theorem exhaustive_anti {a b : Summary} (le : a ≤ b) {selectors wider : LabelSet}
    (grown : selectors ≤ wider) (exhaustive : b.exhaustive wider = true) :
    a.exhaustive selectors = true := by
  rw [exhaustive_iff] at exhaustive ⊢
  obtain ⟨noCause, noEdge⟩ := exhaustive
  constructor
  · intro cause mem
    exact noCause cause (OrderedSet.le_iff.mp (causes_mono le) cause mem)
  · intro selector mem known
    exact noEdge selector (OrderedSet.le_iff.mp (edgeSelectors_mono le) selector mem)
      (OrderedSet.le_iff.mp grown selector known)

theorem mem_foldl_insert (items : List Text) (causes : ExtTreeSet Cause Cause.cmp) (cause : Cause) :
    cause ∈ items.foldl (fun causes selector => causes.insert (unresolvedSelfCall, some selector))
        causes ↔
      cause ∈ causes ∨ ∃ selector ∈ items, cause = (unresolvedSelfCall, some selector) := by
  induction items generalizing causes with
  | nil => simp
  | cons selector items ih =>
      rw [List.foldl_cons, ih, ExtTreeSet.mem_insert, LawfulEqCmp.compare_eq_iff_eq]
      simp only [List.exists_mem_cons_iff, eq_comm]
      tauto

theorem mem_causesFor {summary : Summary} {selectors : LabelSet} {cause : Cause} :
    cause ∈ summary.causesFor selectors ↔
      cause ∈ summary.causes ∨
        ∃ selector ∈ summary.edgeSelectors, selector ∈ selectors ∧
          cause = (unresolvedSelfCall, some selector) := by
  rw [causesFor, ExtTreeSet.mem_toList, ExtTreeSet.foldl_eq_foldl_toList, mem_foldl_insert]
  simp [ExtTreeSet.mem_toList, ExtTreeSet.mem_inter_iff, and_assoc]

/-- A method lists a cause exactly when it is not exhaustive. -/
theorem causesFor_eq_nil_iff {summary : Summary} {selectors : LabelSet} :
    summary.causesFor selectors = [] ↔ summary.exhaustive selectors = true := by
  rw [List.eq_nil_iff_forall_not_mem, exhaustive_iff]
  simp only [mem_causesFor, not_or]
  constructor
  · intro none
    refine ⟨fun cause => (none cause).1, ?_⟩
    intro selector edge known
    exact (none _).2 ⟨selector, edge, known, rfl⟩
  · rintro ⟨noCause, noEdge⟩ cause
    refine ⟨noCause cause, ?_⟩
    rintro ⟨selector, edge, known, -⟩
    exact noEdge selector edge known

end Summary

end Rigor.Cli.Effects
