import Mathlib.Data.List.TakeWhile
import Mathlib.Logic.Relation

/-!
# A breadth-first walk with a cap

The walk takes a node from the front of its queue.  A node that was seen is dropped, another one is
visited: it is marked and its links go to the end of the queue.  The walk stops at an unseen node
once it has visited as many nodes as the cap allows.  A node is popped if a state of the walk has it
at the front of the queue, whether it is dropped, visited or the one the walk stops at.
-/

namespace Rigor.Library.CappedWalk

open Relation

universe u

structure Walk (κ : Type u) where
  queue : List κ
  seen : List κ
  visited : Nat

variable {κ : Type u}

/-- One round that does not stop. -/
inductive Step (links : κ → List κ) (cap : Nat) : Walk κ → Walk κ → Prop where
  | drop {node : κ} {queue seen : List κ} {visited : Nat} (old : node ∈ seen) :
      Step links cap ⟨node :: queue, seen, visited⟩ ⟨queue, seen, visited⟩
  | visit {node : κ} {queue seen : List κ} {visited : Nat} (fresh : node ∉ seen)
      (room : visited < cap) :
      Step links cap ⟨node :: queue, seen, visited⟩
        ⟨queue ++ links node, node :: seen, visited + 1⟩

/-- The walk behind the node it starts from, which counts as seen. -/
def start (links : κ → List κ) (node : κ) : Walk κ :=
  ⟨links node, [node], 0⟩

def Pops (links : κ → List κ) (cap : Nat) (walk : Walk κ) (node : κ) : Prop :=
  ∃ queue seen visited, ReflTransGen (Step links cap) walk ⟨node :: queue, seen, visited⟩

/-- The walk stops at the node, with the others queued behind it. -/
def Overflows (links : κ → List κ) (cap : Nat) (walk : Walk κ) (seen : List κ) (node : κ)
    (behind : List κ) : Prop :=
  ReflTransGen (Step links cap) walk ⟨node :: behind, seen, cap⟩ ∧ node ∉ seen

variable {links : κ → List κ} {cap visited : Nat} {walk : Walk κ} {node other : κ}
  {queue seen behind : List κ}

/-! ## What is popped, round by round -/

theorem pops_head : Pops links cap ⟨node :: queue, seen, visited⟩ node :=
  ⟨queue, seen, visited, .refl⟩

theorem Pops.of_step {walk' : Walk κ} (step : Step links cap walk walk')
    (popped : Pops links cap walk' node) : Pops links cap walk node := by
  rcases popped with ⟨queue, seen, visited, reaches⟩
  exact ⟨queue, seen, visited, .head step reaches⟩

theorem Pops.of_reaches {walk' : Walk κ} (reaches : ReflTransGen (Step links cap) walk walk')
    (popped : Pops links cap walk' node) : Pops links cap walk node := by
  rcases popped with ⟨queue, seen, visited, later⟩
  exact ⟨queue, seen, visited, reaches.trans later⟩

theorem not_pops_nil : ¬ Pops links cap ⟨[], seen, visited⟩ node := by
  rintro ⟨queue, seen', visited', reaches⟩
  rcases ReflTransGen.cases_head reaches with same | ⟨_, step, _⟩
  · exact nomatch same
  · exact nomatch step

theorem pops_old (old : node ∈ seen) : Pops links cap ⟨node :: queue, seen, visited⟩ other ↔
    other = node ∨ Pops links cap ⟨queue, seen, visited⟩ other := by
  constructor
  · rintro ⟨queue', seen', visited', reaches⟩
    rcases ReflTransGen.cases_head reaches with same | ⟨_, step, later⟩
    · cases same
      exact .inl rfl
    · cases step with
      | drop _ => exact .inr ⟨queue', seen', visited', later⟩
      | visit fresh _ => exact absurd old fresh
  · rintro (rfl | popped)
    · exact pops_head
    · exact popped.of_step (.drop old)

theorem pops_full (fresh : node ∉ seen) (full : cap ≤ visited) :
    Pops links cap ⟨node :: queue, seen, visited⟩ other ↔ other = node := by
  constructor
  · rintro ⟨queue', seen', visited', reaches⟩
    rcases ReflTransGen.cases_head reaches with same | ⟨_, step, _⟩
    · cases same
      rfl
    · cases step with
      | drop old => exact absurd old fresh
      | visit _ room => exact absurd room (Nat.not_lt_of_le full)
  · rintro rfl
    exact pops_head

theorem pops_new (fresh : node ∉ seen) (room : visited < cap) :
    Pops links cap ⟨node :: queue, seen, visited⟩ other ↔
      other = node ∨
        Pops links cap ⟨queue ++ links node, node :: seen, visited + 1⟩ other := by
  constructor
  · rintro ⟨queue', seen', visited', reaches⟩
    rcases ReflTransGen.cases_head reaches with same | ⟨_, step, later⟩
    · cases same
      exact .inl rfl
    · cases step with
      | drop old => exact absurd old fresh
      | visit _ _ => exact .inr ⟨queue', seen', visited', later⟩
  · rintro (rfl | popped)
    · exact pops_head
    · exact popped.of_step (.visit fresh room)

/-! ### From one unseen node to the next -/

section Fronts

variable [BEq κ] [LawfulBEq κ] {rest : List κ}

/-- The seen nodes at the front are popped, one after the other. -/
theorem pops_dropWhile (queue : List κ) :
    Pops links cap ⟨queue, seen, visited⟩ other ↔
      other ∈ queue.takeWhile seen.contains ∨
        Pops links cap ⟨queue.dropWhile seen.contains, seen, visited⟩ other := by
  induction queue with
  | nil => simp
  | cons node queue ih =>
      by_cases old : node ∈ seen
      · have contained : seen.contains node = true := List.contains_iff_mem.mpr old
        rw [pops_old old, ih, List.takeWhile_cons_of_pos contained,
          List.dropWhile_cons_of_pos contained, List.mem_cons, or_assoc]
      · have apart : ¬ seen.contains node = true := fun contained =>
          old (List.contains_iff_mem.mp contained)
        rw [List.takeWhile_cons_of_neg apart, List.dropWhile_cons_of_neg apart]
        simp only [List.not_mem_nil, false_or]

theorem reaches_dropWhile (seen queue : List κ) :
    ReflTransGen (Step links cap) ⟨queue, seen, visited⟩
      ⟨queue.dropWhile seen.contains, seen, visited⟩ := by
  induction queue with
  | nil => exact .refl
  | cons node queue ih =>
      by_cases old : node ∈ seen
      · rw [List.dropWhile_cons_of_pos (List.contains_iff_mem.mpr old)]
        exact .head (.drop old) ih
      · rw [List.dropWhile_cons_of_neg fun contained => old (List.contains_iff_mem.mp contained)]

theorem mem_of_takeWhile (mem : node ∈ queue.takeWhile seen.contains) : node ∈ seen :=
  List.contains_iff_mem.mp (List.mem_takeWhile_imp mem)

/-- The front of a queue behind its seen nodes is unseen. -/
theorem not_mem_of_dropWhile (front : queue.dropWhile seen.contains = node :: rest) :
    node ∉ seen := by
  intro old
  have apart := List.dropWhile_get_zero_not seen.contains queue (by rw [front]; simp)
  simp only [front, List.get_eq_getElem, List.getElem_cons_zero] at apart
  exact apart (List.contains_iff_mem.mpr old)

theorem ne_of_dropWhile (front : queue.dropWhile seen.contains = node :: rest)
    (old : other ∈ seen) : other ≠ node := by
  rintro rfl
  exact not_mem_of_dropWhile front old

theorem pops_ended (front : queue.dropWhile seen.contains = []) :
    Pops links cap ⟨queue, seen, visited⟩ other ↔ other ∈ queue.takeWhile seen.contains := by
  rw [pops_dropWhile, front, or_iff_left not_pops_nil]

theorem pops_stopped (front : queue.dropWhile seen.contains = node :: rest)
    (full : cap ≤ visited) : Pops links cap ⟨queue, seen, visited⟩ other ↔
      other ∈ queue.takeWhile seen.contains ∨ other = node := by
  rw [pops_dropWhile, front, pops_full (not_mem_of_dropWhile front) full]

theorem pops_visited (front : queue.dropWhile seen.contains = node :: rest)
    (room : visited < cap) : Pops links cap ⟨queue, seen, visited⟩ other ↔
      other ∈ queue.takeWhile seen.contains ∨ other = node ∨
        Pops links cap ⟨rest ++ links node, node :: seen, visited + 1⟩ other := by
  rw [pops_dropWhile, front, pops_new (not_mem_of_dropWhile front) room]

/-- The next unseen node is visited. -/
theorem reaches_visited (front : queue.dropWhile seen.contains = node :: rest)
    (room : visited < cap) : ReflTransGen (Step links cap) ⟨queue, seen, visited⟩
      ⟨rest ++ links node, node :: seen, visited + 1⟩ := by
  have dropped : ReflTransGen (Step links cap) ⟨queue, seen, visited⟩
      ⟨queue.dropWhile seen.contains, seen, visited⟩ := reaches_dropWhile seen queue
  rw [front] at dropped
  exact dropped.tail (.visit (not_mem_of_dropWhile front) room)

end Fronts

/-! ## What is popped in the whole walk -/

theorem subset_of_reaches {walk' : Walk κ} (reaches : ReflTransGen (Step links cap) walk walk') :
    ∀ node ∈ walk.seen, node ∈ walk'.seen := by
  induction reaches with
  | refl => exact fun _ mem => mem
  | tail _ step ih =>
      intro node mem
      cases step with
      | drop _ => exact ih node mem
      | visit _ _ => exact List.mem_cons_of_mem _ (ih node mem)

/-- A node that the walk marks was popped before it was marked. -/
theorem visited_of_seen {walk' : Walk κ} (reaches : ReflTransGen (Step links cap) walk walk')
    (mem : node ∈ walk'.seen) :
    node ∈ walk.seen ∨ ∃ queue seen visited,
      ReflTransGen (Step links cap) walk ⟨node :: queue, seen, visited⟩ ∧ node ∉ seen := by
  induction reaches with
  | refl => exact .inl mem
  | tail earlier step ih =>
      cases step with
      | drop _ => exact ih mem
      | visit fresh _ =>
          rcases List.mem_cons.mp mem with rfl | before
          · exact .inr ⟨_, _, _, earlier, fresh⟩
          · exact ih before

theorem step_unique {left right : Walk κ} (first : Step links cap walk left)
    (second : Step links cap walk right) : left = right := by
  cases first with
  | drop old =>
      cases second with
      | drop _ => rfl
      | visit fresh _ => exact absurd old fresh
  | visit fresh _ =>
      cases second with
      | drop old => exact absurd old fresh
      | visit _ _ => rfl

/-- What the walk has popped when it stops, it has marked, but for the node it stops at. -/
theorem Overflows.seen_of_pops (stops : Overflows links cap walk seen node behind)
    (popped : Pops links cap walk other) : other = node ∨ other ∈ seen := by
  rcases popped with ⟨queue, seen', visited, reaches⟩
  have unique : Relator.RightUnique (Step links cap) := fun _ _ _ => step_unique
  rcases ReflTransGen.total_of_right_unique unique reaches stops.1 with later | earlier
  · rcases ReflTransGen.cases_head later with same | ⟨_, step, rest⟩
    · cases same
      exact .inl rfl
    · cases step with
      | drop old => exact .inr (subset_of_reaches rest other old)
      | visit _ _ => exact .inr (subset_of_reaches rest other List.mem_cons_self)
  · exact .inl ((pops_full stops.2 (Nat.le_refl cap)).mp ⟨queue, seen', visited, earlier⟩)

/-! ## A walk that comes to an end -/

/-- The walk does not stop before its queue is empty. -/
def Uncapped (links : κ → List κ) (cap : Nat) (walk : Walk κ) : Prop :=
  ∀ seen node behind, ¬ Overflows links cap walk seen node behind

theorem Uncapped.of_reaches {walk' : Walk κ} (uncapped : Uncapped links cap walk)
    (reaches : ReflTransGen (Step links cap) walk walk') : Uncapped links cap walk' :=
  fun seen node behind stops => uncapped seen node behind ⟨reaches.trans stops.1, stops.2⟩

theorem visited_le_of_reaches {walk' : Walk κ} (room : walk.visited ≤ cap)
    (reaches : ReflTransGen (Step links cap) walk walk') : walk'.visited ≤ cap := by
  induction reaches with
  | refl => exact room
  | tail _ step ih =>
      cases step with
      | drop _ => exact ih
      | visit _ more => exact more

/-- Everything in the queue is popped in the end. -/
theorem Uncapped.pops_of_mem {left : Nat} (room : visited + left = cap)
    (uncapped : Uncapped links cap ⟨queue, seen, visited⟩) (mem : other ∈ queue) :
    Pops links cap ⟨queue, seen, visited⟩ other := by
  induction left generalizing queue seen visited with
  | zero =>
      induction queue with
      | nil => exact nomatch mem
      | cons node queue ih =>
          cases room
          by_cases old : node ∈ seen
          · rw [pops_old old]
            exact (List.mem_cons.mp mem).imp_right
              (ih (uncapped.of_reaches (.single (.drop old))))
          · exact absurd ⟨.refl, old⟩ (uncapped seen node queue)
  | succ left outer =>
      induction queue with
      | nil => exact nomatch mem
      | cons node queue ih =>
          by_cases old : node ∈ seen
          · rw [pops_old old]
            exact (List.mem_cons.mp mem).imp_right
              (ih (uncapped.of_reaches (.single (.drop old))))
          · have more : visited < cap := room ▸ Nat.lt_add_of_pos_right (Nat.succ_pos left)
            rw [pops_new old more]
            refine (List.mem_cons.mp mem).imp_right fun later => ?_
            exact outer (by rw [← room, Nat.add_right_comm, Nat.add_assoc])
              (uncapped.of_reaches (.single (.visit old more))) (List.mem_append_left _ later)

/-- A node that is popped, and not marked from the start, is visited. -/
theorem visits_of_pops (popped : Pops links cap walk node) (unmarked : node ∉ walk.seen) :
    ∃ queue seen visited,
      ReflTransGen (Step links cap) walk ⟨node :: queue, seen, visited⟩ ∧ node ∉ seen := by
  rcases popped with ⟨queue, seen, visited, reaches⟩
  by_cases old : node ∈ seen
  · exact (visited_of_seen reaches old).resolve_left unmarked
  · exact ⟨queue, seen, visited, reaches, old⟩

theorem path_of_reaches {first : κ}
    (reaches : ReflTransGen (Step links cap) (start links first) walk) :
    ∀ node ∈ walk.queue, TransGen (fun node next => next ∈ links node) first node := by
  induction reaches with
  | refl => exact fun _ mem => .single mem
  | tail _ step ih =>
      intro node mem
      cases step with
      | drop _ => exact ih node (List.mem_cons_of_mem _ mem)
      | visit _ _ =>
          rcases List.mem_append.mp mem with waiting | linked
          · exact ih node (List.mem_cons_of_mem _ waiting)
          · exact .tail (ih _ List.mem_cons_self) linked

/-- A walk that comes to an end has popped all that the links lead to. -/
theorem Uncapped.pops_iff {first : κ} (uncapped : Uncapped links cap (start links first)) :
    Pops links cap (start links first) other ↔
      TransGen (fun node next => next ∈ links node) first other := by
  constructor
  · rintro ⟨queue, seen, visited, reaches⟩
    exact path_of_reaches reaches other List.mem_cons_self
  · intro path
    have direct {next : κ} (linked : next ∈ links first) :
        Pops links cap (start links first) next :=
      Uncapped.pops_of_mem (Nat.zero_add cap) uncapped linked
    induction path with
    | single linked => exact direct linked
    | @tail node next _ linked ih =>
        by_cases same : node = first
        · exact direct (same ▸ linked)
        · have unmarked : node ∉ (start links first).seen := fun mem =>
            same (List.mem_singleton.mp mem)
          rcases visits_of_pops ih unmarked with ⟨queue, seen, visited, reaches, fresh⟩
          have bounded : visited ≤ cap := visited_le_of_reaches (Nat.zero_le cap) reaches
          have room : visited < cap := by
            refine Nat.lt_of_le_of_ne bounded fun full => ?_
            cases full
            exact uncapped seen node queue ⟨reaches, fresh⟩
          have onward := reaches.tail (.visit fresh room)
          exact Pops.of_reaches onward
            (Uncapped.pops_of_mem (Nat.add_sub_of_le room) (uncapped.of_reaches onward)
              (List.mem_append_right _ linked))

end Rigor.Library.CappedWalk
