import Mathlib.Data.List.Nodup
import Mathlib.Data.List.Range
import Rigor.Library.SortedRanges

/-!
# The range queries of the reach index

`reach_index.rs` answers two questions about the spans of an arena from a list of the nodes that is
sorted by their starts.
-/

namespace Rigor.Infer.RangeQueries

open Rigor.Library.SortedRanges

abbrev NodeId := Nat

/-- A half-open range of bytes. -/
structure Span where
  start : Nat
  stop : Nat
  ordered : start ≤ stop
  deriving DecidableEq

/-- `contains`. -/
def contains (outer inner : Span) : Bool :=
  outer.start ≤ inner.start && inner.stop ≤ outer.stop

inductive StatementsKind where
  | sequence
  | recovered
  | inert
  deriving DecidableEq

/-- The nodes with sections, case clauses and lambdas, and what the index reads of them. -/
inductive NodeKind where
  | ifNode (thenBody elseBody : List NodeId)
  | caseNode (branches elseBody : List NodeId)
  | whenNode (conditions body : List NodeId)
  | loop (body : List NodeId)
  | statements (body : List NodeId) (kind : StatementsKind)
  /-- With the bodies of the clauses. -/
  | beginRescue (body mainBody ensureBody : List NodeId) (clauses : List (List NodeId))
  | call (blockBody : List NodeId)
  | lambda
  | unmodeledWrite
  | other

structure Node where
  kind : NodeKind
  span : Span

/-- The nodes in arena order, and the blocked extents of the carriers. -/
structure LoweredAst where
  nodes : List Node
  blocked : List Span

namespace LoweredAst

def get (ast : LoweredAst) (id : NodeId) : Node :=
  ast.nodes.getD id ⟨.other, ⟨0, 0, Nat.le_refl 0⟩⟩

def span (ast : LoweredAst) (id : NodeId) : Span :=
  (ast.get id).span

def inBlockedCarrier (ast : LoweredAst) (span : Span) : Bool :=
  ast.blocked.any (contains · span)

def isLambda (ast : LoweredAst) (id : NodeId) : Bool :=
  match (ast.get id).kind with
  | .lambda => true
  | _ => false

end LoweredAst

/-- `unevaluated_case_clause_spans`. -/
def unevaluatedCaseClauseSpans (ast : LoweredAst) : List Span :=
  let unmodeled := ast.nodes.filterMap fun n =>
    match n.kind with
    | .unmodeledWrite => some n.span
    | _ => none
  let branches := ast.nodes.flatMap fun n =>
    match n.kind with
    | .caseNode branches _ => branches
    | _ => []
  branches.flatMap fun b =>
    match (ast.get b).kind with
    | .whenNode conditions _ => conditions.map ast.span
    | .beginRescue body _ _ _ =>
        if ast.span b ∈ unmodeled then body.head?.toList.map ast.span else []
    | _ => []

/-- `statement_sections`. -/
def statementSections (ast : LoweredAst) (id : NodeId) : List (List NodeId) :=
  match (ast.get id).kind with
  | .ifNode thenBody elseBody => [thenBody, elseBody]
  | .caseNode branches elseBody =>
      (branches.filterMap fun w =>
        match (ast.get w).kind with
        | .whenNode _ body => some body
        | _ => none) ++ [elseBody]
  | .loop body | .statements body .sequence => [body]
  | .beginRescue _ mainBody ensureBody clauses => mainBody :: clauses ++ [ensureBody]
  | .call blockBody => [blockBody]
  | _ => []

/-- The order of pairs of a start and a node. -/
def startLe (a b : Nat × Nat) : Bool :=
  a.1 < b.1 || (a.1 = b.1 && a.2 ≤ b.2)

/-- `better`: wider, or as wide and first in the arena. -/
def better (best : Option (Nat × NodeId)) (width : Nat) (id : NodeId) : Bool :=
  match best with
  | none => true
  | some (bw, bid) => width > bw || (width = bw && id < bid)

/-- `holds`. -/
def holds (ast : LoweredAst) (useSpan : Span) (body : List NodeId) : Bool :=
  body.any fun s => contains (ast.span s) useSpan

/-- The tables that the two queries read, and the answers that they keep. -/
structure ReachIndex where
  caseClauses : List Span
  byStart : List (Nat × NodeId)
  sections : List ((NodeId × Span) × Option NodeId)

namespace ReachIndex

/-- `ReachIndex::build`. -/
def build (ast : LoweredAst) : ReachIndex where
  caseClauses := unevaluatedCaseClauseSpans ast
  byStart := ((List.range ast.nodes.length).map fun id => ((ast.span id).start, id)).mergeSort startLe
  sections := []

def inCaseClause (index : ReachIndex) (span : Span) : Bool :=
  index.caseClauses.any (contains · span)

/-- `nodes_within`. -/
def nodesWithin (index : ReachIndex) (ast : LoweredAst) (span : Span) : List NodeId :=
  let lo := partitionPoint (below Prod.fst span.start) index.byStart
  let hi := partitionPoint (below Prod.fst (max span.stop (span.start + 1))) index.byStart
  ((slice lo hi index.byStart).map Prod.snd).filter fun id => contains span (ast.span id)

/-- The loop of `scan_nested_section_owner`. -/
def scanFrom (index : ReachIndex) (ast : LoweredAst) (stmt : NodeId) (useSpan : Span) :
    Option (Nat × NodeId) → List (Nat × NodeId) → Option NodeId
  | best, [] => best.map Prod.snd
  | best, (_, id) :: rest =>
      let sp := ast.span id
      if id = stmt ∨ ¬contains (ast.span stmt) sp ∨ ¬contains sp useSpan ∨ index.inCaseClause sp ∨
          ast.inBlockedCarrier sp then
        scanFrom index ast stmt useSpan best rest
      else if ast.isLambda id then none
      else
        let width := sp.stop - sp.start
        if better best width id && (statementSections ast id).any (holds ast useSpan) then
          scanFrom index ast stmt useSpan (some (width, id)) rest
        else scanFrom index ast stmt useSpan best rest

/-- `scan_nested_section_owner`. -/
def scanNestedSectionOwner (index : ReachIndex) (ast : LoweredAst) (stmt : NodeId) (useSpan : Span) :
    Option NodeId :=
  let lo := partitionPoint (below Prod.fst (ast.span stmt).start) index.byStart
  let hi := partitionPoint (below Prod.fst (useSpan.start + 1)) index.byStart
  index.scanFrom ast stmt useSpan none (slice lo hi index.byStart)

/-- `nested_section_owner`, with the index after the call. -/
def nestedSectionOwner (index : ReachIndex) (ast : LoweredAst) (stmt : NodeId) (useSpan : Span) :
    Option NodeId × ReachIndex :=
  match index.sections.lookup (stmt, useSpan) with
  | some hit => (hit, index)
  | none =>
      let out := index.scanNestedSectionOwner ast stmt useSpan
      (out, { index with sections := ((stmt, useSpan), out) :: index.sections })

/-- The index of an arena after any queries. -/
inductive Reached (ast : LoweredAst) : ReachIndex → Prop where
  | build : Reached ast (build ast)
  | query {index : ReachIndex} (reached : Reached ast index) (stmt : NodeId) (useSpan : Span) :
      Reached ast (index.nestedSectionOwner ast stmt useSpan).2

end ReachIndex

/-! ## The scans over the whole arena -/

/-- A section of the node holds the read. -/
def HoldsUse (ast : LoweredAst) (id : NodeId) (useSpan : Span) : Prop :=
  ∃ body ∈ statementSections ast id, ∃ s ∈ body, contains (ast.span s) useSpan = true

/-- A node that lies inside the statement and contains the read, and that is evaluated. -/
structure Between (ast : LoweredAst) (stmt : NodeId) (useSpan : Span) (id : NodeId) : Prop where
  listed : id < ast.nodes.length
  other : id ≠ stmt
  inside : contains (ast.span stmt) (ast.span id) = true
  around : contains (ast.span id) useSpan = true
  noClause : ¬∃ clause ∈ unevaluatedCaseClauseSpans ast, contains clause (ast.span id) = true
  unblocked : ¬∃ extent ∈ ast.blocked, contains extent (ast.span id) = true

def width (ast : LoweredAst) (id : NodeId) : Nat :=
  (ast.span id).stop - (ast.span id).start

/-- No lambda lies between, and the node is the first of the widest ones that hold the read. -/
structure Owns (ast : LoweredAst) (stmt : NodeId) (useSpan : Span) (id : NodeId) : Prop where
  noLambda : ∀ other, Between ast stmt useSpan other → ast.isLambda other = false
  between : Between ast stmt useSpan id
  holds : HoldsUse ast id useSpan
  widest : ∀ other, Between ast stmt useSpan other → HoldsUse ast other useSpan →
    width ast other < width ast id ∨ (width ast other = width ast id ∧ id ≤ other)

theorem Owns.unique {ast : LoweredAst} {stmt : NodeId} {useSpan : Span} {id other : NodeId}
    (owns : Owns ast stmt useSpan id) (owns' : Owns ast stmt useSpan other) : id = other := by
  have first := owns.widest other owns'.between owns'.holds
  have first' := owns'.widest id owns.between owns.holds
  grind

/-! ## The sorted starts -/

theorem startLe_trans (a b c : Nat × Nat) (first : startLe a b = true) (second : startLe b c = true) :
    startLe a c = true := by
  simp only [startLe, Bool.or_eq_true, Bool.and_eq_true, decide_eq_true_eq] at first second ⊢
  omega

theorem startLe_total (a b : Nat × Nat) : (startLe a b || startLe b a) = true := by
  simp only [startLe, Bool.or_eq_true, Bool.and_eq_true, decide_eq_true_eq]
  omega

namespace ReachIndex

variable {ast : LoweredAst} {index : ReachIndex}

theorem byStart_sorted (ast : LoweredAst) :
    (build ast).byStart.Pairwise fun a b => a.1 ≤ b.1 := by
  refine (List.pairwise_mergeSort startLe_trans startLe_total _).imp ?_
  intro a b before
  simp only [startLe, Bool.or_eq_true, Bool.and_eq_true, decide_eq_true_eq] at before
  omega

theorem byStart_perm (ast : LoweredAst) : (build ast).byStart.Perm
    ((List.range ast.nodes.length).map fun id => ((ast.span id).start, id)) :=
  List.mergeSort_perm _ _

theorem mem_byStart {s : Nat} {id : NodeId} :
    (s, id) ∈ (build ast).byStart ↔ id < ast.nodes.length ∧ s = (ast.span id).start := by
  rw [(byStart_perm ast).mem_iff, List.mem_map]
  constructor
  · rintro ⟨other, listed, same⟩
    cases same
    exact ⟨List.mem_range.mp listed, rfl⟩
  · rintro ⟨listed, rfl⟩
    exact ⟨id, List.mem_range.mpr listed, rfl⟩

/-- Every node has one entry. -/
theorem byStart_nodup (ast : LoweredAst) : ((build ast).byStart.map Prod.snd).Nodup := by
  have ids := (byStart_perm ast).map Prod.snd
  rw [List.map_map] at ids
  have same : Prod.snd ∘ (fun id => ((ast.span id).start, id)) = id := rfl
  rw [same, List.map_id] at ids
  exact ids.nodup_iff.mpr List.nodup_range

/-! ## Nodes within a span -/

theorem contains_iff {outer inner : Span} :
    contains outer inner = true ↔ outer.start ≤ inner.start ∧ inner.stop ≤ outer.stop := by
  rw [contains, Bool.and_eq_true, decide_eq_true_eq, decide_eq_true_eq]

theorem mem_nodesWithin {span : Span} {id : NodeId} : id ∈ (build ast).nodesWithin ast span ↔
    id < ast.nodes.length ∧ contains span (ast.span id) = true ∧
      (ast.span id).start < max span.stop (span.start + 1) := by
  rw [nodesWithin, List.mem_filter, List.mem_map]
  constructor
  · rintro ⟨⟨⟨s, id⟩, inSlice, rfl⟩, inside⟩
    rcases (mem_slice_below (byStart_sorted ast)).mp inSlice with ⟨mem, _, less⟩
    rcases mem_byStart.mp mem with ⟨listed, rfl⟩
    exact ⟨listed, inside, less⟩
  · rintro ⟨listed, inside, less⟩
    refine ⟨⟨((ast.span id).start, id), ?_, rfl⟩, inside⟩
    exact (mem_slice_below (byStart_sorted ast)).mpr
      ⟨mem_byStart.mpr ⟨listed, rfl⟩, (contains_iff.mp inside).1, less⟩

theorem nodup_nodesWithin (ast : LoweredAst) (span : Span) :
    ((build ast).nodesWithin ast span).Nodup := by
  refine List.Nodup.filter _ ?_
  exact (byStart_nodup ast).sublist ((slice_sublist _ _ _).map Prod.snd)

/-! ## The owner of a section -/

section Scan

variable {stmt : NodeId} {useSpan : Span}

theorem between_iff {id : NodeId} (listed : id < ast.nodes.length) :
    Between ast stmt useSpan id ↔
      ¬(id = stmt ∨ ¬contains (ast.span stmt) (ast.span id) ∨ ¬contains (ast.span id) useSpan ∨
        (build ast).inCaseClause (ast.span id) ∨ ast.inBlockedCarrier (ast.span id)) := by
  have clause : (build ast).inCaseClause (ast.span id) = true ↔
      ∃ clause ∈ unevaluatedCaseClauseSpans ast, contains clause (ast.span id) = true :=
    List.any_eq_true
  have blocked : ast.inBlockedCarrier (ast.span id) = true ↔
      ∃ extent ∈ ast.blocked, contains extent (ast.span id) = true := List.any_eq_true
  rw [clause, blocked]
  constructor
  · rintro ⟨_, other, inside, around, noClause, unblocked⟩
    rintro (same | outside | apart | inClause | inBlocked)
    · exact other same
    · exact outside inside
    · exact apart around
    · exact noClause inClause
    · exact unblocked inBlocked
  · intro passes
    simp only [not_or, not_not] at passes
    rcases passes with ⟨other, inside, around, noClause, unblocked⟩
    exact ⟨listed, other, inside, around, noClause, unblocked⟩

/-- The best node so far, after one more that is between. -/
def offer (ast : LoweredAst) (useSpan : Span) (best : Option (Nat × NodeId)) (id : NodeId) :
    Option (Nat × NodeId) :=
  if better best (width ast id) id && (statementSections ast id).any (holds ast useSpan) then
    some (width ast id, id)
  else best

theorem scanFrom_skip {best : Option (Nat × NodeId)} {s : Nat} {id : NodeId}
    {rest : List (Nat × NodeId)} (listed : id < ast.nodes.length)
    (skipped : ¬Between ast stmt useSpan id) :
    (build ast).scanFrom ast stmt useSpan best ((s, id) :: rest) =
      (build ast).scanFrom ast stmt useSpan best rest := by
  rw [between_iff listed, not_not] at skipped
  rw [scanFrom]
  exact if_pos skipped

theorem scanFrom_lambda {best : Option (Nat × NodeId)} {s : Nat} {id : NodeId}
    {rest : List (Nat × NodeId)} (between : Between ast stmt useSpan id)
    (lambda : ast.isLambda id = true) :
    (build ast).scanFrom ast stmt useSpan best ((s, id) :: rest) = none := by
  have passes := (between_iff between.listed).mp between
  rw [scanFrom]
  exact (if_neg passes).trans (if_pos lambda)

theorem scanFrom_offer {best : Option (Nat × NodeId)} {s : Nat} {id : NodeId}
    {rest : List (Nat × NodeId)} (between : Between ast stmt useSpan id)
    (noLambda : ast.isLambda id = false) :
    (build ast).scanFrom ast stmt useSpan best ((s, id) :: rest) =
      (build ast).scanFrom ast stmt useSpan (offer ast useSpan best id) rest := by
  have passes := (between_iff between.listed).mp between
  rw [scanFrom]
  refine (if_neg passes).trans ?_
  rw [noLambda, if_neg Bool.false_ne_true, offer]
  change (if better best (width ast id) id && (statementSections ast id).any (holds ast useSpan) then _
    else _) = _
  split <;> rfl

/-- The first of the widest nodes of a set. -/
def Best (ast : LoweredAst) (seen : NodeId → Prop) : Option (Nat × NodeId) → Prop
  | none => ∀ id, ¬seen id
  | some (w, id) => w = width ast id ∧ seen id ∧ ∀ other, seen other →
      width ast other < width ast id ∨ (width ast other = width ast id ∧ id ≤ other)

theorem any_holds_iff {id : NodeId} :
    (statementSections ast id).any (holds ast useSpan) = true ↔ HoldsUse ast id useSpan := by
  simp only [List.any_eq_true, holds, HoldsUse]

theorem better_some_iff {w width : Nat} {bid id : NodeId} :
    better (some (w, bid)) width id = true ↔ w < width ∨ (width = w ∧ id < bid) := by
  simp only [better, Bool.or_eq_true, Bool.and_eq_true, decide_eq_true_eq]

/-- A node without a section that holds the read changes nothing. -/
theorem offer_of_not_holds {best : Option (Nat × NodeId)} {id : NodeId}
    (noSection : ¬HoldsUse ast id useSpan) : offer ast useSpan best id = best := by
  rw [← any_holds_iff, Bool.not_eq_true] at noSection
  rw [offer, noSection, Bool.and_false, if_neg Bool.false_ne_true]

/-- One more node in the set. -/
theorem Best.insert {seen : NodeId → Prop} {best : Option (Nat × NodeId)} {id : NodeId}
    (isBest : Best ast seen best) (found : HoldsUse ast id useSpan) :
    Best ast (fun other => seen other ∨ other = id) (offer ast useSpan best id) := by
  have section_holds := any_holds_iff.mpr found
  rw [offer, section_holds, Bool.and_true]
  rcases best with _ | ⟨w, bid⟩
  · refine ⟨rfl, .inr rfl, ?_⟩
    rintro other (before | rfl)
    · exact absurd before (isBest other)
    · exact .inr ⟨rfl, Nat.le_refl _⟩
  · rcases isBest with ⟨rfl, isSeen, first⟩
    by_cases improves : better (some (width ast bid, bid)) (width ast id) id = true
    · rw [if_pos improves]
      rw [better_some_iff] at improves
      refine ⟨rfl, .inr rfl, ?_⟩
      rintro other (before | rfl)
      · have bound := first other before
        grind
      · exact .inr ⟨rfl, Nat.le_refl _⟩
    · rw [if_neg improves]
      rw [better_some_iff] at improves
      refine ⟨rfl, .inl isSeen, ?_⟩
      rintro other (before | rfl)
      · exact first other before
      · grind

theorem Best.congr {seen seen' : NodeId → Prop} {best : Option (Nat × NodeId)}
    (isBest : Best ast seen best) (same : ∀ id, seen id ↔ seen' id) : Best ast seen' best := by
  have equal : seen = seen' := funext fun id => propext (same id)
  exact equal ▸ isBest

/-- A lambda that is between ends the scan without an owner. -/
theorem scanFrom_eq_none {items : List (Nat × NodeId)} {best : Option (Nat × NodeId)}
    (listed : ∀ item ∈ items, item.2 < ast.nodes.length)
    (lambda : ∃ item ∈ items, Between ast stmt useSpan item.2 ∧ ast.isLambda item.2 = true) :
    (build ast).scanFrom ast stmt useSpan best items = none := by
  induction items generalizing best with
  | nil =>
      rcases lambda with ⟨_, mem, _⟩
      cases mem
  | cons item items ih =>
      rcases item with ⟨s, id⟩
      rw [List.forall_mem_cons] at listed
      by_cases between : Between ast stmt useSpan id
      · by_cases here : ast.isLambda id = true
        · exact scanFrom_lambda between here
        · rw [scanFrom_offer between (Bool.eq_false_iff.mpr here)]
          refine ih listed.2 ?_
          rcases lambda with ⟨other, mem, isBetween, isLambda⟩
          rcases List.mem_cons.mp mem with rfl | later
          · exact absurd isLambda here
          · exact ⟨other, later, isBetween, isLambda⟩
      · rw [scanFrom_skip listed.1 between]
        refine ih listed.2 ?_
        rcases lambda with ⟨other, mem, isBetween, isLambda⟩
        rcases List.mem_cons.mp mem with rfl | later
        · exact absurd isBetween between
        · exact ⟨other, later, isBetween, isLambda⟩

/-- Without a lambda between, the scan ends with the best of all that it has seen. -/
theorem scanFrom_best {items : List (Nat × NodeId)} {best : Option (Nat × NodeId)}
    {seen : NodeId → Prop} (isBest : Best ast seen best)
    (listed : ∀ item ∈ items, item.2 < ast.nodes.length)
    (noLambda : ∀ item ∈ items, Between ast stmt useSpan item.2 → ast.isLambda item.2 = false) :
    ∃ best', (build ast).scanFrom ast stmt useSpan best items = best'.map Prod.snd ∧
      Best ast (fun id => seen id ∨ (id ∈ items.map Prod.snd ∧ Between ast stmt useSpan id ∧
        HoldsUse ast id useSpan)) best' := by
  induction items generalizing best seen with
  | nil =>
      refine ⟨best, rfl, isBest.congr ?_⟩
      intro id
      rw [List.map_nil]
      exact ⟨.inl, fun either => either.resolve_right fun found => List.not_mem_nil found.1⟩
  | cons item items ih =>
      rcases item with ⟨s, id⟩
      rw [List.forall_mem_cons] at listed noLambda
      -- The set after this node and the rest is the set after the whole list.
      have regroup (added : Prop) (isAdded : added ↔ Between ast stmt useSpan id ∧
          HoldsUse ast id useSpan) (other : NodeId) :
          ((seen other ∨ (other = id ∧ added)) ∨ (other ∈ items.map Prod.snd ∧
            Between ast stmt useSpan other ∧ HoldsUse ast other useSpan)) ↔
          (seen other ∨ (other ∈ ((s, id) :: items).map Prod.snd ∧
            Between ast stmt useSpan other ∧ HoldsUse ast other useSpan)) := by
        rw [List.map_cons, List.mem_cons, isAdded]
        by_cases same : other = id
        · subst same
          tauto
        · tauto
      by_cases between : Between ast stmt useSpan id
      · rw [scanFrom_offer between (noLambda.1 between)]
        by_cases found : HoldsUse ast id useSpan
        · rcases ih (isBest.insert found) listed.2 noLambda.2 with ⟨best', scanned, isBest'⟩
          refine ⟨best', scanned, isBest'.congr ?_⟩
          intro other
          rw [← regroup True (by simp [between, found]) other]
          simp only [and_true]
        · rw [offer_of_not_holds found]
          rcases ih isBest listed.2 noLambda.2 with ⟨best', scanned, isBest'⟩
          refine ⟨best', scanned, isBest'.congr ?_⟩
          intro other
          rw [← regroup False (by simp [found]) other]
          simp only [and_false, or_false]
      · rw [scanFrom_skip listed.1 between]
        rcases ih isBest listed.2 noLambda.2 with ⟨best', scanned, isBest'⟩
        refine ⟨best', scanned, isBest'.congr ?_⟩
        intro other
        rw [← regroup False (by simp [between]) other]
        simp only [and_false, or_false]

/-- A node between is in the range that the scan reads. -/
theorem mem_slice_of_between {id : NodeId} (between : Between ast stmt useSpan id) :
    id ∈ (slice (partitionPoint (below Prod.fst (ast.span stmt).start) (build ast).byStart)
      (partitionPoint (below Prod.fst (useSpan.start + 1)) (build ast).byStart)
      (build ast).byStart).map Prod.snd := by
  have inside := contains_iff.mp between.inside
  have around := contains_iff.mp between.around
  refine List.mem_map.mpr ⟨((ast.span id).start, id), ?_, rfl⟩
  exact (mem_slice_below (byStart_sorted ast)).mpr ⟨mem_byStart.mpr ⟨between.listed, rfl⟩, inside.1,
    Nat.lt_succ_of_le around.1⟩

theorem listed_of_mem_slice {lo hi : Nat} {item : Nat × NodeId}
    (mem : item ∈ slice lo hi (build ast).byStart) : item.2 < ast.nodes.length :=
  (mem_byStart.mp ((slice_sublist lo hi _).subset mem)).1

/-- The scan finds the owner. -/
theorem scanNestedSectionOwner_iff {id : NodeId} :
    (build ast).scanNestedSectionOwner ast stmt useSpan = some id ↔ Owns ast stmt useSpan id := by
  rw [scanNestedSectionOwner]
  by_cases lambda : ∃ other, Between ast stmt useSpan other ∧ ast.isLambda other = true
  · rcases lambda with ⟨other, between, isLambda⟩
    rcases List.mem_map.mp (mem_slice_of_between between) with ⟨item, mem, rfl⟩
    rw [scanFrom_eq_none (fun _ => listed_of_mem_slice) ⟨item, mem, between, isLambda⟩]
    refine iff_of_false (by simp) ?_
    intro owns
    rw [owns.noLambda item.2 between] at isLambda
    contradiction
  · have noLambda : ∀ other, Between ast stmt useSpan other → ast.isLambda other = false := by
      intro other between
      rw [Bool.eq_false_iff]
      exact fun isLambda => lambda ⟨other, between, isLambda⟩
    have empty : Best ast (fun _ => False) none := fun _ inside => inside
    rcases scanFrom_best empty (fun _ => listed_of_mem_slice) (fun item _ => noLambda item.2) with
      ⟨best, scanned, isBest⟩
    rw [scanned]
    have seen : ∀ other, (False ∨ (other ∈ (slice
        (partitionPoint (below Prod.fst (ast.span stmt).start) (build ast).byStart)
        (partitionPoint (below Prod.fst (useSpan.start + 1)) (build ast).byStart)
        (build ast).byStart).map Prod.snd ∧ Between ast stmt useSpan other ∧
          HoldsUse ast other useSpan)) ↔
        Between ast stmt useSpan other ∧ HoldsUse ast other useSpan := by
      intro other
      rw [false_or]
      exact ⟨fun found => found.2, fun found => ⟨mem_slice_of_between found.1, found⟩⟩
    have isBest' := isBest.congr seen
    rcases best with _ | ⟨w, owner⟩
    · refine iff_of_false (by simp) ?_
      intro owns
      exact isBest' id ⟨owns.between, owns.holds⟩
    · rcases isBest' with ⟨_, found, first⟩
      have owned : Owns ast stmt useSpan owner :=
        ⟨noLambda, found.1, found.2, fun other between holds => first other ⟨between, holds⟩⟩
      rw [Option.map_some, Option.some.injEq]
      constructor
      · rintro rfl
        exact owned
      · intro owns
        exact owned.unique owns

end Scan

/-! ## The answers that are kept -/

/-- The tables are those of the arena, and what is kept is what a scan answers. -/
structure Sound (ast : LoweredAst) (index : ReachIndex) : Prop where
  caseClauses : index.caseClauses = (build ast).caseClauses
  byStart : index.byStart = (build ast).byStart
  kept : ∀ stmt useSpan hit, index.sections.lookup (stmt, useSpan) = some hit →
    hit = (build ast).scanNestedSectionOwner ast stmt useSpan

theorem sound_build (ast : LoweredAst) : Sound ast (build ast) where
  caseClauses := rfl
  byStart := rfl
  kept := by
    intro stmt useSpan hit found
    cases found

theorem Sound.scan (sound : Sound ast index) (stmt : NodeId) (useSpan : Span) :
    index.scanNestedSectionOwner ast stmt useSpan =
      (build ast).scanNestedSectionOwner ast stmt useSpan := by
  have loop (best : Option (Nat × NodeId)) (items : List (Nat × NodeId)) :
      index.scanFrom ast stmt useSpan best items = (build ast).scanFrom ast stmt useSpan best items := by
    induction items generalizing best with
    | nil => rfl
    | cons item items ih =>
        simp only [scanFrom, inCaseClause, sound.caseClauses, ih]
  rw [scanNestedSectionOwner, scanNestedSectionOwner, sound.byStart, loop]

/-- A query answers what a scan answers, and keeps it. -/
theorem Sound.nestedSectionOwner (sound : Sound ast index) (stmt : NodeId) (useSpan : Span) :
    (index.nestedSectionOwner ast stmt useSpan).1 =
        (build ast).scanNestedSectionOwner ast stmt useSpan ∧
      Sound ast (index.nestedSectionOwner ast stmt useSpan).2 := by
  rw [ReachIndex.nestedSectionOwner]
  cases found : index.sections.lookup (stmt, useSpan) with
  | some hit => exact ⟨sound.kept stmt useSpan hit found, sound⟩
  | none =>
      refine ⟨sound.scan stmt useSpan, sound.caseClauses, sound.byStart, ?_⟩
      intro stmt' useSpan' hit kept
      rw [List.lookup_cons] at kept
      by_cases same : (stmt', useSpan') = (stmt, useSpan)
      · rw [beq_iff_eq.mpr same] at kept
        cases same
        cases kept
        exact sound.scan stmt useSpan
      · rw [beq_eq_false_iff_ne.mpr same] at kept
        exact sound.kept stmt' useSpan' hit kept

theorem Reached.sound (reached : Reached ast index) : Sound ast index := by
  induction reached with
  | build => exact sound_build ast
  | query _ stmt useSpan ih => exact (ih.nestedSectionOwner stmt useSpan).2

/-- After any queries the owner is found. -/
theorem nestedSectionOwner_iff (reached : Reached ast index) {stmt : NodeId} {useSpan : Span}
    {id : NodeId} : (index.nestedSectionOwner ast stmt useSpan).1 = some id ↔
      Owns ast stmt useSpan id := by
  rw [(reached.sound.nestedSectionOwner stmt useSpan).1, scanNestedSectionOwner_iff]

/-! ## The two queries against the whole arena -/

/-- The nodes inside the span, each once. -/
def YieldsWithin (ast : LoweredAst) (index : ReachIndex) (span : Span) : Prop :=
  (index.nodesWithin ast span).Nodup ∧ ∀ id, id ∈ index.nodesWithin ast span ↔
    id < ast.nodes.length ∧ contains span (ast.span id) = true

/-- An empty node stands at the end of a span that is not empty. -/
def EmptyAtEnd (ast : LoweredAst) (span : Span) : Prop :=
  span.start < span.stop ∧
    ∃ id < ast.nodes.length, (ast.span id).start = span.stop ∧ (ast.span id).stop = span.stop

theorem Sound.nodesWithin (sound : Sound ast index) (span : Span) :
    index.nodesWithin ast span = (build ast).nodesWithin ast span := by
  rw [ReachIndex.nodesWithin, ReachIndex.nodesWithin, sound.byStart]

theorem yieldsWithin_iff (reached : Reached ast index) (span : Span) :
    YieldsWithin ast index span ↔ ¬EmptyAtEnd ast span := by
  rw [YieldsWithin, reached.sound.nodesWithin span]
  constructor
  · rintro ⟨_, yields⟩ ⟨nonempty, id, listed, start, stop⟩
    have inside : contains span (ast.span id) = true := contains_iff.mpr (by omega)
    have bound := (mem_nodesWithin.mp ((yields id).mpr ⟨listed, inside⟩)).2.2
    omega
  · intro clear
    refine ⟨nodup_nodesWithin ast span, ?_⟩
    intro id
    rw [mem_nodesWithin]
    constructor
    · exact fun found => ⟨found.1, found.2.1⟩
    · rintro ⟨listed, inside⟩
      refine ⟨listed, inside, ?_⟩
      have bounds := contains_iff.mp inside
      have ordered := (ast.span id).ordered
      by_contra late
      exact clear ⟨by omega, id, listed, by omega, by omega⟩

/--
After any queries the owner of a section is what a scan of the arena finds, and the nodes within a
span are those of the arena unless an empty one stands at the end of a span that is not empty.
-/
theorem rangeQueries_iff (ast : LoweredAst) (span : Span) :
    (∀ index, Reached ast index → YieldsWithin ast index span ∧ ∀ stmt useSpan id,
      (index.nestedSectionOwner ast stmt useSpan).1 = some id ↔ Owns ast stmt useSpan id) ↔
    ¬EmptyAtEnd ast span := by
  constructor
  · intro agrees
    exact (yieldsWithin_iff .build span).mp (agrees _ .build).1
  · intro clear index reached
    exact ⟨(yieldsWithin_iff reached span).mpr clear, fun _ _ _ => nestedSectionOwner_iff reached⟩

/-- A node of three bytes, and an empty node at its end. -/
def trailingEmpty : LoweredAst where
  nodes := [⟨.other, ⟨3, 3, by decide⟩⟩, ⟨.other, ⟨0, 3, by decide⟩⟩]
  blocked := []

/-- The empty node is not among the nodes within the other one. -/
theorem not_yieldsWithin_trailingEmpty :
    ¬YieldsWithin trailingEmpty (build trailingEmpty) ⟨0, 3, by decide⟩ := by
  rintro ⟨_, yields⟩
  have found := mem_nodesWithin.mp ((yields 0).mpr ⟨by decide, by decide⟩)
  exact absurd found.2.2 (by decide)

end ReachIndex

end Rigor.Infer.RangeQueries
