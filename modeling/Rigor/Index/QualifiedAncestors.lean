import Rigor.Index.WrittenNames
import Rigor.Library.OpenWalk

/-!
# Ancestors of qualified names

The chain of an entry of the qualified table, and whether it is complete.  The walk follows
references as written, and gives up at the first one that the reference implementation would not
build.
-/

namespace Rigor.Index

open Relation
open Rigor.Library
open Rigor.Library.OpenWalk (Trail Links Walks)

/-- An entry of the finished qualified table, with the mark of an instance side that does not
build. -/
structure BuiltEntry extends QualifiedEntry where
  instanceUnbuildable : Bool

namespace QualifiedTable

variable (data : QualifiedTable BuiltEntry)

def entry? (key : Text) : Option BuiltEntry :=
  data.qualified.lookup key

def qualifiedDefaultSuperclass (key : Text) (entry : BuiltEntry) : Option Text :=
  if !entry.isModule && key ≠ "BasicObject".toList then data.key? "Object".toList else none

/-- The references in turn.  The walk ends at one that does not resolve. -/
def collectRefs (collect : Text → Trail Text → Option (Trail Text)) :
    List (Text × List Text) → Trail Text → Option (Trail Text)
  | [], walk => some walk
  | written :: rest, walk =>
      match data.resolveWrittenRef written with
      | none => some walk.fail
      | some m =>
          (collect m walk).bind fun walk => if walk.ok then collectRefs collect rest walk else some walk

/-- A superclass that is a module does not build. -/
def collectSuper (collect : Text → Trail Text → Option (Trail Text)) (sup : Text) (walk : Trail Text) :
    Option (Trail Text) :=
  if (data.entry? sup).any fun entry => entry.isModule then some walk.fail else collect sup walk

def collectSuperclass (collect : Text → Trail Text → Option (Trail Text)) (key : Text)
    (entry : BuiltEntry) (walk : Trail Text) : Option (Trail Text) :=
  match entry.superclassWritten with
  | some written =>
      match data.resolveWrittenRef written with
      | none => some walk.fail
      | some sup => data.collectSuper collect sup walk
  | none =>
      match data.qualifiedDefaultSuperclass key entry with
      | none => some walk
      | some sup => data.collectSuper collect sup walk

def collectQualifiedEdges (collect : Text → Trail Text → Option (Trail Text)) (key : Text)
    (entry : BuiltEntry) (walk : Trail Text) : Option (Trail Text) :=
  (data.collectRefs collect entry.prependsWritten walk).bind fun walk =>
    if !walk.ok then some walk
    else
      (data.collectRefs collect entry.includesWritten (walk.push key)).bind fun walk =>
        if !walk.ok then some walk else data.collectSuperclass collect key entry walk

def collectQualified : Nat → Text → Trail Text → Option (Trail Text)
  | 0, _, _ => none
  | fuel + 1, key, walk =>
      if !walk.ok then some walk
      else if walk.opened.contains key then some walk.fail
      else
        match data.entry? key with
        | none => some walk.fail
        | some entry =>
            if entry.instanceUnbuildable then some walk.fail
            else if walk.seen.contains key then some walk
            else
              (data.collectQualifiedEdges (collectQualified fuel) key entry (walk.enter key)).map
                fun walk => walk.close key

/-- The chain, and whether it is complete. -/
def qualifiedAncestors (qname : Text) : Option (List Text × Bool) :=
  match data.key? qname with
  | none => some ([], false)
  | some start =>
      (data.collectQualified (data.qualified.length + 1) start .start).map fun walk =>
        (walk.order, walk.ok)

/-! ## The graph of the references -/

/-- The superclass, as written or by default. -/
def superclassOf (key : Text) (entry : BuiltEntry) : Option Text :=
  match entry.superclassWritten with
  | some written => data.resolveWrittenRef written
  | none => data.qualifiedDefaultSuperclass key entry

def AncestorEdge (key ancestor : Text) : Prop :=
  ∃ entry, data.entry? key = some entry ∧
    ((∃ written ∈ entry.prependsWritten ++ entry.includesWritten,
      data.resolveWrittenRef written = some ancestor) ∨ data.superclassOf key entry = some ancestor)

/-- The entry builds, its references resolve to entries, and its superclass is a class. -/
def Intact (key : Text) : Prop :=
  ∃ entry, data.entry? key = some entry ∧ entry.instanceUnbuildable = false ∧
    (∀ written ∈ entry.prependsWritten ++ entry.includesWritten ++ entry.superclassWritten.toList,
      ∃ ancestor, data.resolveWrittenRef written = some ancestor ∧ data.IsKey ancestor) ∧
    ∀ sup, data.superclassOf key entry = some sup → ∃ above, data.entry? sup = some above ∧
      above.isModule = false

/-- Everything that is reached is intact, and not reached again from itself. -/
def Unbroken (qname : Text) : Prop :=
  ∀ key, ReflTransGen data.AncestorEdge qname key →
    data.Intact key ∧ ¬ TransGen data.AncestorEdge key key

/-- A link to a superclass is broken at a module. -/
def superLink (sup : Text) : Option Text :=
  if (data.entry? sup).any fun entry => entry.isModule then none else some sup

def superLinks (key : Text) (entry : BuiltEntry) : List (Option Text) :=
  match entry.superclassWritten with
  | some written => [(data.resolveWrittenRef written).bind data.superLink]
  | none => (data.qualifiedDefaultSuperclass key entry).toList.map data.superLink

/-- The links of an entry that builds. -/
def graph (key : Text) : Option (Links Text) :=
  match data.entry? key with
  | none => none
  | some entry =>
      if entry.instanceUnbuildable then none
      else some ⟨entry.prependsWritten.map data.resolveWrittenRef,
        entry.includesWritten.map data.resolveWrittenRef ++ data.superLinks key entry⟩

/-! ## The walk over the graph -/

section Walk

variable {data : QualifiedTable BuiltEntry} {fuel : Nat}
  {collect : Text → Trail Text → Option (Trail Text)}

def unseen (data : QualifiedTable BuiltEntry) (walk : Trail Text) : Nat :=
  OpenWalk.unseen (data.qualified.map Prod.fst) walk

/-- With enough fuel the function walks along the link. -/
def Collects (data : QualifiedTable BuiltEntry) (fuel : Nat)
    (collect : Text → Trail Text → Option (Trail Text)) : Prop :=
  ∀ key walk, data.unseen walk < fuel →
    ∃ last, collect key walk = some last ∧ Walks data.graph [some key] walk last

theorem collectRefs_walks (collects : data.Collects fuel collect) (refs : List (Text × List Text))
    (walk : Trail Text) (enough : data.unseen walk < fuel) (ok : walk.ok = true) :
    ∃ last, data.collectRefs collect refs walk = some last ∧
      Walks data.graph (refs.map data.resolveWrittenRef) walk last := by
  induction refs generalizing walk with
  | nil => exact ⟨walk, rfl, .nil⟩
  | cons written rest ih =>
      rw [collectRefs, List.map_cons]
      cases resolved : data.resolveWrittenRef written with
      | none => exact ⟨walk.fail, rfl, .broken ok⟩
      | some m =>
          rcases collects m walk enough with ⟨next, collected, first⟩
          simp only [collected, Option.bind_some]
          have fewer : data.unseen next < fuel :=
            Nat.lt_of_le_of_lt (OpenWalk.unseen_le _ first.seen_subset) enough
          cases nextOk : next.ok with
          | false => exact ⟨next, rfl, first.append (.dead nextOk)⟩
          | true =>
              rcases ih next fewer nextOk with ⟨last, followed, second⟩
              exact ⟨last, followed, first.append second⟩

theorem collectSuper_walks (collects : data.Collects fuel collect) (sup : Text) (walk : Trail Text)
    (enough : data.unseen walk < fuel) (ok : walk.ok = true) :
    ∃ last, data.collectSuper collect sup walk = some last ∧
      Walks data.graph [data.superLink sup] walk last := by
  rw [collectSuper, superLink]
  cases (data.entry? sup).any fun entry => entry.isModule with
  | true => exact ⟨walk.fail, rfl, .broken ok⟩
  | false => exact collects sup walk enough

theorem collectSuperclass_walks (collects : data.Collects fuel collect) (key : Text) (entry : BuiltEntry)
    (walk : Trail Text) (enough : data.unseen walk < fuel) (ok : walk.ok = true) :
    ∃ last, data.collectSuperclass collect key entry walk = some last ∧
      Walks data.graph (data.superLinks key entry) walk last := by
  simp only [collectSuperclass, superLinks]
  cases entry.superclassWritten with
  | some written =>
      cases resolved : data.resolveWrittenRef written with
      | none =>
          simp only [resolved, Option.bind_none]
          exact ⟨walk.fail, rfl, .broken ok⟩
      | some sup =>
          simp only [resolved, Option.bind_some]
          exact collectSuper_walks collects sup walk enough ok
  | none =>
      cases data.qualifiedDefaultSuperclass key entry with
      | none => exact ⟨walk, rfl, .nil⟩
      | some sup => exact collectSuper_walks collects sup walk enough ok

theorem collectQualifiedEdges_walks (collects : data.Collects fuel collect) (key : Text)
    (entry : BuiltEntry) {walk : Trail Text} (enough : data.unseen walk < fuel) (ok : walk.ok = true) :
    ∃ first second, data.collectQualifiedEdges collect key entry walk = some second ∧
      Walks data.graph (entry.prependsWritten.map data.resolveWrittenRef) walk first ∧
      Walks data.graph (entry.includesWritten.map data.resolveWrittenRef ++ data.superLinks key entry)
        (first.push key) second := by
  rcases collectRefs_walks collects entry.prependsWritten walk enough ok with ⟨first, prepended, before⟩
  rw [collectQualifiedEdges, prepended, Option.bind_some]
  have fewer : data.unseen first < fuel :=
    Nat.lt_of_le_of_lt (OpenWalk.unseen_le _ before.seen_subset) enough
  cases firstOk : first.ok with
  | false =>
      have same : first.push key = first := by rw [Trail.push, firstOk]; rfl
      refine ⟨first, first, rfl, before, ?_⟩
      rw [same]
      exact .dead firstOk
  | true =>
      have pushOk : (first.push key).ok = true := (Trail.push_ok first key).trans firstOk
      have pushFewer : data.unseen (first.push key) < fuel := by
        rwa [unseen, OpenWalk.unseen, Trail.push_seen]
      rcases collectRefs_walks collects entry.includesWritten (first.push key) pushFewer pushOk with
        ⟨middle, included, after⟩
      simp only [Bool.not_true, Bool.false_eq_true, if_false, included, Option.bind_some]
      cases middleOk : middle.ok with
      | false => exact ⟨first, middle, rfl, before, after.append (.dead middleOk)⟩
      | true =>
          have fewest : data.unseen middle < fuel :=
            Nat.lt_of_le_of_lt (OpenWalk.unseen_le _ after.seen_subset) pushFewer
          rcases collectSuperclass_walks collects key entry middle fewest middleOk with
            ⟨last, inherited, above⟩
          exact ⟨first, last, inherited, before, after.append above⟩

/-- The walk ends: every entry it enters leaves one less to enter. -/
theorem collectQualified_walks (data : QualifiedTable BuiltEntry) (fuel : Nat) :
    data.Collects fuel (data.collectQualified fuel) := by
  induction fuel with
  | zero => exact fun key walk enough => absurd enough (Nat.not_lt_zero _)
  | succ fuel ih =>
      intro key walk enough
      rw [collectQualified]
      cases ok : walk.ok with
      | false => exact ⟨walk, rfl, .dead ok⟩
      | true =>
          simp only [Bool.not_true, Bool.false_eq_true, if_false, List.contains_iff_mem]
          by_cases opened : key ∈ walk.opened
          · exact ⟨walk.fail, if_pos opened, .back ok opened⟩
          · rw [if_neg opened]
            cases found : data.entry? key with
            | none =>
                have absent : data.graph key = none := by rw [graph, found]
                exact ⟨walk.fail, rfl, .missing ok opened absent⟩
            | some entry =>
                cases built : entry.instanceUnbuildable with
                | true =>
                    have absent : data.graph key = none := by
                      rw [graph, found]
                      exact if_pos built
                    simp only [built, if_true]
                    exact ⟨walk.fail, rfl, .missing ok opened absent⟩
                | false =>
                    have links : data.graph key = some ⟨entry.prependsWritten.map data.resolveWrittenRef,
                        entry.includesWritten.map data.resolveWrittenRef ++ data.superLinks key entry⟩ := by
                      rw [graph, found]
                      simp only [built, Bool.false_eq_true, if_false]
                    simp only [built, Bool.false_eq_true, if_false]
                    by_cases seen : key ∈ walk.seen
                    · exact ⟨walk, if_pos seen, .again ok opened links seen .nil⟩
                    · have mem : key ∈ data.qualified.map Prod.fst :=
                        List.mem_map.mpr ⟨(key, entry), Grouping.mem_of_lookup found, rfl⟩
                      have fewer : data.unseen (walk.enter key) < fuel :=
                        Nat.lt_of_lt_of_le (OpenWalk.unseen_enter mem seen) (Nat.le_of_lt_succ enough)
                      rcases collectQualifiedEdges_walks ih key entry fewer ok with
                        ⟨first, second, collected, before, after⟩
                      rw [if_neg seen, collected, Option.map_some]
                      exact ⟨second.close key, rfl, .enter ok opened links seen before after .nil⟩

end Walk

/-! ## Whether the chain is complete -/

section Chain

variable {data : QualifiedTable BuiltEntry} {key ancestor : Text} {entry : BuiltEntry}

theorem superLink_eq_some : data.superLink key = some ancestor ↔
    ancestor = key ∧ ((data.entry? key).any fun entry => entry.isModule) = false := by
  rw [superLink]
  split
  next isModule => simp [isModule]
  next noModule => simp only [Option.some.injEq, noModule, and_true, eq_comm]

theorem superLinks_of_superclassOf (sup : Text) (above : data.superclassOf key entry = some sup) :
    data.superLinks key entry = [data.superLink sup] := by
  rw [superclassOf] at above
  rw [superLinks]
  split at above
  next written found => simp only [above, Option.bind_some]
  next found => simp only [above, Option.toList_some, List.map_cons, List.map_nil]

theorem superLinks_of_none (none : data.superclassOf key entry = none) :
    data.superLinks key entry = entry.superclassWritten.toList.map fun _ => Option.none := by
  rw [superclassOf] at none
  rw [superLinks]
  split at none
  next written found => simp only [none, found, Option.bind_none, Option.toList_some, List.map_cons, List.map_nil]
  next found => simp only [none, found, Option.toList_none, List.map_nil]

theorem isKey_of_superclassOf (above : data.superclassOf key entry = some ancestor) :
    data.IsKey ancestor := by
  rw [superclassOf] at above
  split at above
  · exact isKey_of_resolveWrittenRef above
  · rw [qualifiedDefaultSuperclass] at above
    split at above
    · exact isKey_of_key? above
    · exact nomatch above

/-- The superclass that was written resolves, and the superclass is a class. -/
theorem unbroken_superLinks : none ∉ data.superLinks key entry ↔
    (∀ written ∈ entry.superclassWritten.toList, ∃ sup, data.resolveWrittenRef written = some sup) ∧
      ∀ sup, data.superclassOf key entry = some sup →
        ∃ above, data.entry? sup = some above ∧ above.isModule = false := by
  cases above : data.superclassOf key entry with
  | none =>
      rw [superLinks_of_none above]
      rw [superclassOf] at above
      cases declared : entry.superclassWritten with
      | none => simp
      | some written =>
          simp only [declared] at above
          simp [above]
  | some sup =>
      have isKey := isKey_of_superclassOf above
      rcases Option.isSome_iff_exists.mp isKey with ⟨found, present⟩
      have link : data.superLink sup = if found.isModule then none else some sup := by
        rw [superLink, entry?, present]
        rfl
      have resolves : ∀ written ∈ entry.superclassWritten.toList,
          ∃ sup, data.resolveWrittenRef written = some sup := by
        intro written declared
        rw [superclassOf, Option.mem_toList.mp declared] at above
        exact ⟨sup, above⟩
      rw [superLinks_of_superclassOf sup above, link, and_iff_right resolves]
      constructor
      · rintro unbroken _ ⟨⟩
        refine ⟨found, present, ?_⟩
        cases isModule : found.isModule with
        | false => rfl
        | true => exact absurd (by simp [isModule]) unbroken
      · intro classes
        rcases classes sup rfl with ⟨found', present', isClass⟩
        cases present.symm.trans present'
        simp [isClass]

theorem unbroken_refs {refs : List (Text × List Text)} : none ∉ refs.map data.resolveWrittenRef ↔
    ∀ written ∈ refs, ∃ ancestor, data.resolveWrittenRef written = some ancestor := by
  simp only [List.mem_map, not_exists, not_and, ← Option.ne_none_iff_exists']

theorem intact_iff : data.Intact key ↔
    ∃ links, data.graph key = some links ∧ none ∉ links.all := by
  have registers (written : Text × List Text) :
      (∃ ancestor, data.resolveWrittenRef written = some ancestor ∧ data.IsKey ancestor) ↔
        ∃ ancestor, data.resolveWrittenRef written = some ancestor :=
    exists_congr fun ancestor => and_iff_left_of_imp isKey_of_resolveWrittenRef
  rw [Intact, graph]
  cases data.entry? key with
  | none => exact iff_of_false nofun nofun
  | some entry =>
      cases built : entry.instanceUnbuildable with
      | true => simp [built]
      | false =>
          simp only [Option.some.injEq, exists_eq_left', built, Bool.false_eq_true, if_false,
            Links.all, List.mem_append, not_or, unbroken_refs, unbroken_superLinks, or_imp,
            forall_and, registers, true_and]
          tauto

theorem edge_of_link (link : OpenWalk.Edge data.graph key ancestor) : data.AncestorEdge key ancestor := by
  rcases link with ⟨links, found, mem⟩
  rw [graph] at found
  cases present : data.entry? key with
  | none =>
      rw [present] at found
      exact nomatch found
  | some entry =>
      simp only [present] at found
      split at found
      · exact nomatch found
      · cases found
        refine ⟨entry, present, ?_⟩
        rcases List.mem_append.mp mem with inPrepends | inRest
        · rcases List.mem_map.mp inPrepends with ⟨written, declared, resolved⟩
          exact .inl ⟨written, List.mem_append_left _ declared, resolved⟩
        · rcases List.mem_append.mp inRest with inIncludes | isSuper
          · rcases List.mem_map.mp inIncludes with ⟨written, declared, resolved⟩
            exact .inl ⟨written, List.mem_append_right _ declared, resolved⟩
          · right
            cases above : data.superclassOf key entry with
            | none =>
                rw [superLinks_of_none above] at isSuper
                exact absurd isSuper (by simp)
            | some sup =>
                rw [superLinks_of_superclassOf sup above] at isSuper
                rw [(superLink_eq_some.mp (List.mem_singleton.mp isSuper).symm).1]

/-- An intact entry has all its ancestors among its links. -/
theorem link_of_edge (intact : data.Intact key) (edge : data.AncestorEdge key ancestor) :
    OpenWalk.Edge data.graph key ancestor := by
  rcases intact with ⟨entry, present, built, -, classes⟩
  rcases edge with ⟨entry', present', declared⟩
  cases present.symm.trans present'
  refine ⟨_, by rw [graph, present]; exact if_neg (by simp [built]), ?_⟩
  rcases declared with ⟨written, declared, resolved⟩ | above
  · rcases List.mem_append.mp declared with inPrepends | inIncludes
    · exact List.mem_append_left _ (List.mem_map.mpr ⟨written, inPrepends, resolved⟩)
    · exact List.mem_append_right _
        (List.mem_append_left _ (List.mem_map.mpr ⟨written, inIncludes, resolved⟩))
  · rcases classes ancestor above with ⟨found, present'', isClass⟩
    have link : data.superLink ancestor = some ancestor := by
      rw [superLink_eq_some, present'']
      exact ⟨rfl, isClass⟩
    refine List.mem_append_right _ (List.mem_append_right _ ?_)
    rw [superLinks_of_superclassOf ancestor above, link]
    exact List.mem_singleton_self _

theorem mem_keys_of_graph (found : (data.graph key).isSome = true) :
    key ∈ data.qualified.map Prod.fst := by
  rw [graph] at found
  cases present : data.entry? key with
  | none => simp [present] at found
  | some entry => exact List.mem_map.mpr ⟨(key, entry), Grouping.mem_of_lookup present, rfl⟩

/-- Below an entry the walk's graph has the nodes and the cycles of the ancestors' graph, as long
as all of them are intact. -/
theorem good_iff_unbroken : OpenWalk.Good data.graph key ↔ data.Unbroken key := by
  rw [OpenWalk.good_iff fun x found => mem_keys_of_graph found]
  constructor
  · intro fine
    have walked {x : Text} (reaches : ReflTransGen data.AncestorEdge key x) :
        ReflTransGen (OpenWalk.Edge data.graph) key x := by
      induction reaches with
      | refl => exact .refl
      | tail _ edge ih => exact ih.tail (link_of_edge (intact_iff.mpr (fine _ ih).1) edge)
    intro x reaches
    have below := walked reaches
    refine ⟨intact_iff.mpr (fine x below).1, fun cycle => (fine x below).2 ?_⟩
    suffices ∀ y, TransGen data.AncestorEdge x y → TransGen (OpenWalk.Edge data.graph) x y from
      this x cycle
    intro y path
    induction path with
    | single edge => exact .single (link_of_edge (intact_iff.mpr (fine x below).1) edge)
    | tail path edge ih =>
        have onward := walked (reaches.trans path.to_reflTransGen)
        exact ih.tail (link_of_edge (intact_iff.mpr (fine _ onward).1) edge)
  · intro unbroken x reaches
    have reached : ReflTransGen data.AncestorEdge key x :=
      ReflTransGen.mono (fun _ _ => edge_of_link) _ _ reaches
    refine ⟨intact_iff.mp (unbroken x reached).1, fun cycle => (unbroken x reached).2 ?_⟩
    exact TransGen.mono (fun _ _ => edge_of_link) _ _ cycle

/-- The chain of ancestors always comes to an end, and it is complete exactly where everything it
reaches can be built. -/
theorem qualifiedAncestors_complete (data : QualifiedTable BuiltEntry) (qname : Text) :
    ∃ chain complete, data.qualifiedAncestors qname = some (chain, complete) ∧
      (complete = true ↔ data.Unbroken qname) ∧ chain.Nodup ∧
      (∀ key ∈ chain, ReflTransGen data.AncestorEdge qname key) ∧
      (complete = true → ∀ key, ReflTransGen data.AncestorEdge qname key → key ∈ chain) := by
  rw [qualifiedAncestors]
  by_cases isKey : data.IsKey qname
  · have enough : data.unseen .start < data.qualified.length + 1 := by
      have most : data.unseen .start ≤ (data.qualified.map Prod.fst).length := List.countP_le_length
      rw [List.length_map] at most
      exact Nat.lt_succ_of_le most
    rcases collectQualified_walks data _ qname .start enough with ⟨last, collected, walks⟩
    rcases walks.from_start with ⟨complete, nodup, reached, whole⟩
    simp only [key?_of_isKey isKey, collected, Option.map_some]
    refine ⟨last.order, last.ok, rfl, complete.trans good_iff_unbroken, nodup, ?_, ?_⟩
    · exact fun key mem => ReflTransGen.mono (fun _ _ => edge_of_link) _ _ (reached key mem)
    · intro ok key reaches
      have unbroken := good_iff_unbroken.mp (complete.mp ok)
      refine whole ok key ?_
      induction reaches with
      | refl => exact .refl
      | tail before edge ih => exact ih.tail (link_of_edge (unbroken _ before).1 edge)
  · rw [key?_eq_none isKey]
    refine ⟨[], false, rfl, iff_of_false Bool.false_ne_true ?_, .nil, nofun, nofun⟩
    intro unbroken
    rcases (unbroken qname .refl).1 with ⟨entry, found, -⟩
    exact isKey (Option.isSome_iff_exists.mpr ⟨entry, found⟩)

end Chain

end QualifiedTable

end Rigor.Index
