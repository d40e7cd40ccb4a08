import Rigor.Infer.Source.Ancestry
import Rigor.Library.CappedWalk

/-!
# The closure of a candidate and the walk for one owner

The override filter asks whether an owner is among the ancestors of a candidate.  The closure of
the candidate is what the walk for a single owner pops when it does not find the owner: the nodes
in front of the queue, seen or not, with the one at which the walk stops.
-/

namespace Rigor.Infer.Source

open Rigor.Library.CappedWalk
open Relation

universe v

namespace AncestorTables

variable {Refinement : Type v} (tables : AncestorTables Refinement)

/-- The loop of `related_to_owner`: the owner is looked for before the other tests. -/
def relatedLoop (owner : Text) (queue seen : List Text) (visited : Nat) : Bool :=
  match queue with
  | [] => false
  | current :: queue =>
      if current = owner then true
      else if current ∈ seen then relatedLoop owner queue seen visited
      else if overrideAncestorWalkLimit < visited + 1 then false
      else
        relatedLoop owner (queue ++ tables.overrideAncestorNames current) (current :: seen)
          (visited + 1)
termination_by (overrideAncestorWalkLimit - visited, queue.length)

def relatedToOwner (candidate owner : Text) : Bool :=
  tables.relatedLoop owner (tables.overrideAncestorNames candidate) [candidate] 0

/-! ## What the walk of a candidate meets -/

/-- The name comes to the front of the queue before the walk stops. -/
def Popped (candidate name : Text) : Prop :=
  Pops tables.overrideAncestorNames overrideAncestorWalkLimit
    (start tables.overrideAncestorNames candidate) name

/-- The walk has marked the limit of nodes, and has another one and those behind it left. -/
def StopsAt (candidate : Text) (seen : List Text) (node : Text) (behind : List Text) : Prop :=
  Library.CappedWalk.Overflows tables.overrideAncestorNames overrideAncestorWalkLimit
    (start tables.overrideAncestorNames candidate) seen node behind

/-- What holds of the closure of a candidate. -/
structure ClosureLaws (candidate : Text) : Prop where
  related : ∀ owner, (tables.ancestorClosure candidate).contains owner =
    tables.relatedToOwner candidate owner
  popped : ∀ name, name ∈ tables.ancestorClosure candidate ↔ tables.Popped candidate name
  overflowing : ∀ seen node behind, tables.StopsAt candidate seen node behind →
    node ∈ tables.ancestorClosure candidate
  behind : ∀ seen node behind, tables.StopsAt candidate seen node behind →
    ∀ name ∈ behind, name ∈ tables.ancestorClosure candidate → name = node ∨ name ∈ seen
  cycle : candidate ∈ tables.ancestorClosure candidate →
    TransGen tables.AncestorEdge candidate candidate
  complete : (∀ seen node behind, ¬ tables.StopsAt candidate seen node behind) →
    ∀ name, name ∈ tables.ancestorClosure candidate ↔ TransGen tables.AncestorEdge candidate name

variable {tables} {candidate owner name : Text}

/-! ## The two loops pop the same names -/

theorem relatedLoop_iff (queue seen : List Text) (visited : Nat) :
    tables.relatedLoop owner queue seen visited = true ↔
      Pops tables.overrideAncestorNames overrideAncestorWalkLimit ⟨queue, seen, visited⟩ owner := by
  fun_induction relatedLoop tables owner queue seen visited with
  | case1 seen visited => simp [not_pops_nil]
  | case2 seen visited queue => simp [pops_head]
  | case3 seen visited current queue apart old ih => rw [ih, pops_old old, or_iff_right (Ne.symm apart)]
  | case4 seen visited current queue apart fresh full =>
      rw [pops_full fresh (Nat.le_of_lt_succ full)]
      simp [Ne.symm apart]
  | case5 seen visited current queue apart fresh room ih =>
      rw [ih, pops_new fresh (Nat.lt_of_succ_le (Nat.le_of_not_lt room)),
        or_iff_right (Ne.symm apart)]

theorem relatedToOwner_iff : tables.relatedToOwner candidate owner = true ↔
    tables.Popped candidate owner :=
  relatedLoop_iff _ _ 0

/-- The closure behind a state of the walk: what is marked already and what will be popped. -/
theorem mem_walkClosure (remaining visited : Nat) (seen queue : List Text)
    (room : visited + remaining = overrideAncestorWalkLimit) :
    name ∈ (tables.walkClosure candidate remaining seen queue).1 ↔
      name ∈ seen ∨ Pops tables.overrideAncestorNames overrideAncestorWalkLimit
        ⟨queue, seen, visited⟩ name := by
  have dropped : name ∈ queue.takeWhile seen.contains → name ∈ seen := mem_of_takeWhile
  induction remaining generalizing visited seen queue with
  | zero =>
      rw [walkClosure]
      rcases front : queue.dropWhile seen.contains with _ | ⟨current, rest⟩
      · rw [pops_ended front, or_iff_left_of_imp dropped]
      · have full : overrideAncestorWalkLimit ≤ visited := Nat.le_of_eq room.symm
        rw [pops_stopped front full]
        simp only [List.mem_cons]
        tauto
  | succ remaining ih =>
      rw [walkClosure]
      rcases front : queue.dropWhile seen.contains with _ | ⟨current, rest⟩
      · rw [pops_ended front, or_iff_left_of_imp dropped]
      · have later := ih (visited + 1) (current :: seen)
          (rest ++ tables.overrideAncestorNames current)
          ((Nat.succ_add_eq_add_succ _ _).trans room) mem_of_takeWhile
        rw [pops_visited front (by omega)]
        simp only [later, List.mem_cons]
        tauto

/-- The candidate is marked from the start, so the walk meets it only among the dropped nodes. -/
theorem walkClosure_back (remaining visited : Nat) (seen queue : List Text)
    (room : visited + remaining = overrideAncestorWalkLimit) (own : candidate ∈ seen) :
    (tables.walkClosure candidate remaining seen queue).2 = true ↔
      Pops tables.overrideAncestorNames overrideAncestorWalkLimit ⟨queue, seen, visited⟩
        candidate := by
  induction remaining generalizing visited seen queue with
  | zero =>
      rw [walkClosure]
      rcases front : queue.dropWhile seen.contains with _ | ⟨current, rest⟩
      · rw [pops_ended front]
        exact List.contains_iff_mem
      · have full : overrideAncestorWalkLimit ≤ visited := Nat.le_of_eq room.symm
        rw [pops_stopped front full, or_iff_left (ne_of_dropWhile front own)]
        exact List.contains_iff_mem
  | succ remaining ih =>
      rw [walkClosure]
      rcases front : queue.dropWhile seen.contains with _ | ⟨current, rest⟩
      · rw [pops_ended front]
        exact List.contains_iff_mem
      · have later := ih (visited + 1) (current :: seen)
          (rest ++ tables.overrideAncestorNames current)
          ((Nat.succ_add_eq_add_succ _ _).trans room) (List.mem_cons_of_mem _ own)
        rw [pops_visited front (by omega), or_iff_right (ne_of_dropWhile front own), ← later]
        simp only [Bool.or_eq_true, List.contains_iff_mem]

theorem mem_ancestorClosure : name ∈ tables.ancestorClosure candidate ↔
    tables.Popped candidate name := by
  have members : name ∈ (tables.walkClosure candidate overrideAncestorWalkLimit [candidate]
      (tables.overrideAncestorNames candidate)).1 ↔
      name ∈ [candidate] ∨ tables.Popped candidate name := mem_walkClosure _ 0 _ _ (Nat.zero_add _)
  have back : (tables.walkClosure candidate overrideAncestorWalkLimit [candidate]
      (tables.overrideAncestorNames candidate)).2 = true ↔ tables.Popped candidate candidate :=
    walkClosure_back _ 0 _ _ (Nat.zero_add _) List.mem_cons_self
  rw [ancestorClosure]
  split
  next closure returned walked =>
    rw [walked] at members back
    by_cases own : name = candidate
    · subst own
      cases returned with
      | true => exact iff_of_true (members.mpr (.inl List.mem_cons_self)) (back.mp rfl)
      | false =>
          refine iff_of_false ?_ fun popped => nomatch back.mpr popped
          simp
    · rw [List.mem_singleton, or_iff_right own] at members
      cases returned with
      | true => exact members
      | false =>
          rw [if_neg Bool.false_ne_true, List.mem_filter, ← members]
          simp [own]

/-! ## The laws -/

theorem ancestorClosure_laws (tables : AncestorTables Refinement) (candidate : Text) :
    tables.ClosureLaws candidate where
  related owner := by
    rw [Bool.eq_iff_iff, List.contains_iff_mem, mem_ancestorClosure, relatedToOwner_iff]
  popped name := mem_ancestorClosure
  overflowing _ _ _ stops := mem_ancestorClosure.mpr ⟨_, _, _, stops.1⟩
  behind _ _ _ stops _ _ mem := stops.seen_of_pops (mem_ancestorClosure.mp mem)
  cycle own := by
    rcases mem_ancestorClosure.mp own with ⟨queue, seen, visited, reaches⟩
    exact path_of_reaches reaches candidate List.mem_cons_self
  complete uncapped _ := mem_ancestorClosure.trans (Uncapped.pops_iff uncapped)

def moduleName (i : Nat) : Text :=
  'M' :: Nat.toDigits 10 i

def plainEntry (includes : List Text) : OverrideClass Unit :=
  ⟨⟨[], []⟩, none, includes, [], ∅, false, []⟩

/-- A class `C` that includes 101 modules, the second of which includes the first. -/
def wideHierarchy : AncestorTables Unit where
  overrideClasses :=
    ("C".toList, plainEntry ((List.range 101).map moduleName)) ::
      (List.range 101).map fun i => (moduleName i, plainEntry (if i = 1 then [moduleName 0] else []))
  definers := []

variable (tables) in
/-- The node at which a walk stops, and the queue behind it. -/
def stop? : Nat → List Text → List Text → Option (Text × List Text)
  | remaining, seen, queue =>
      match queue.dropWhile seen.contains with
      | [] => none
      | node :: behind =>
          match remaining with
          | 0 => some (node, behind)
          | remaining + 1 =>
              stop? remaining (node :: seen) (behind ++ tables.overrideAncestorNames node)

theorem overflows_of_stop {node : Text} {behind : List Text} (remaining visited : Nat)
    (seen queue : List Text) (room : visited + remaining = overrideAncestorWalkLimit)
    (stops : tables.stop? remaining seen queue = some (node, behind)) :
    ∃ seen', Library.CappedWalk.Overflows tables.overrideAncestorNames overrideAncestorWalkLimit
      ⟨queue, seen, visited⟩ seen' node behind := by
  induction remaining generalizing visited seen queue with
  | zero =>
      rw [stop?] at stops
      rcases front : queue.dropWhile seen.contains with _ | ⟨current, rest⟩
      · rw [front] at stops
        exact nomatch stops
      · rw [front] at stops
        cases stops
        cases room
        refine ⟨seen, ?_, not_mem_of_dropWhile front⟩
        rw [← front]
        exact reaches_dropWhile seen queue
  | succ remaining ih =>
      rw [stop?] at stops
      rcases front : queue.dropWhile seen.contains with _ | ⟨current, rest⟩
      · rw [front] at stops
        exact nomatch stops
      · rw [front] at stops
        rcases ih (visited + 1) (current :: seen) _ ((Nat.succ_add_eq_add_succ _ _).trans room)
          stops with ⟨seen', later, fresh⟩
        exact ⟨seen', (reaches_visited front (by omega)).trans later, fresh⟩

theorem mem_ancestorClosure_wideHierarchy :
    ∃ seen, wideHierarchy.StopsAt "C".toList seen (moduleName 100) [moduleName 0] ∧
      moduleName 0 ∈ wideHierarchy.ancestorClosure "C".toList := by
  have stops : wideHierarchy.stop? 100 ["C".toList] (wideHierarchy.overrideAncestorNames "C".toList) =
      some (moduleName 100, [moduleName 0]) := by decide +kernel
  have first : (wideHierarchy.overrideAncestorNames "C".toList).head? = some (moduleName 0) := by
    decide +kernel
  rcases List.head?_eq_some_iff.mp first with ⟨queue, names⟩
  rcases overflows_of_stop 100 0 _ _ (Nat.zero_add _) stops with ⟨seen, overflows⟩
  refine ⟨seen, overflows, mem_ancestorClosure.mpr ?_⟩
  rw [Popped, start, names]
  exact pops_head

end AncestorTables

end Rigor.Infer.Source
