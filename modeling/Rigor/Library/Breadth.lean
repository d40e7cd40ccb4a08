import Mathlib.Algebra.BigOperators.Group.List.Basic
import Mathlib.Algebra.Order.BigOperators.Group.List
import Mathlib.Algebra.GroupWithZero.Nat
import Mathlib.Algebra.Order.Group.Nat

/-!
# Breadth-first search

A search along links, which visits every node once and stops at the first node with an
answer.  It takes a fuel, and the cost of the queue is enough.
-/

namespace Rigor.Library.Breadth

universe u v

variable {κ : Type u} {α : Type v} [DecidableEq κ]

/-- The first answer of a node. -/
def search (links : κ → List κ) (answer : κ → Option α) : Nat → List κ → List κ → Option α
  | 0, _, _ => none
  | _ + 1, _, [] => none
  | fuel + 1, seen, node :: queue =>
      if node ∈ seen then search links answer fuel seen queue
      else
        match answer node with
        | some found => some found
        | none => search links answer fuel (node :: seen) (queue ++ links node)

/-- The nodes in the order in which a search that finds nothing visits them. -/
def visits (links : κ → List κ) : Nat → List κ → List κ → List κ
  | 0, _, _ => []
  | _ + 1, _, [] => []
  | fuel + 1, seen, node :: queue =>
      if node ∈ seen then visits links fuel seen queue
      else node :: visits links fuel (node :: seen) (queue ++ links node)

theorem search_eq (links : κ → List κ) (answer : κ → Option α) (fuel : Nat) (seen queue : List κ) :
    search links answer fuel seen queue = (visits links fuel seen queue).findSome? answer := by
  induction fuel generalizing seen queue with
  | zero => rfl
  | succ fuel ih =>
      cases queue with
      | nil => rfl
      | cons node queue =>
          rw [search, visits]
          split
          · exact ih seen queue
          · rw [List.findSome?_cons]
            cases answer node with
            | some found => rfl
            | none => exact ih _ _

/-- The links that a node may still add to the queue. -/
def weight (links : κ → List κ) (seen : List κ) (node : κ) : Nat :=
  if node ∈ seen then 0 else (links node).length

/-- Each round takes a node from the queue, and only an unseen node adds its links. -/
def cost (links : κ → List κ) (nodes seen queue : List κ) : Nat :=
  queue.length + (nodes.map (weight links seen)).sum

theorem weight_cons_le (links : κ → List κ) (seen : List κ) (node other : κ) :
    weight links (node :: seen) other ≤ weight links seen other := by
  unfold weight
  split
  · exact Nat.zero_le _
  · rw [if_neg fun old => ‹other ∉ node :: seen› (List.mem_cons_of_mem _ old)]

theorem sum_weight_cons_le (links : κ → List κ) (nodes seen : List κ) (node : κ) :
    (nodes.map (weight links (node :: seen))).sum ≤ (nodes.map (weight links seen)).sum :=
  List.sum_le_sum fun other _ => weight_cons_le links seen node other

theorem sum_weight_cons (links : κ → List κ) {nodes seen : List κ} {node : κ} (mem : node ∈ nodes)
    (fresh : node ∉ seen) :
    (links node).length + (nodes.map (weight links (node :: seen))).sum ≤
      (nodes.map (weight links seen)).sum := by
  induction nodes with
  | nil => simp at mem
  | cons other nodes ih =>
      rw [List.map_cons, List.sum_cons, List.map_cons, List.sum_cons]
      rcases List.mem_cons.mp mem with rfl | mem
      · have rest := sum_weight_cons_le links nodes seen node
        simp only [weight, List.mem_cons, true_or, if_true, if_neg fresh]
        omega
      · have rest := ih mem
        have here := weight_cons_le links seen node other
        omega

/-- More fuel than the cost makes no difference. -/
theorem visits_of_cost_le {links : κ → List κ} {nodes : List κ}
    (leaves : ∀ node, node ∉ nodes → links node = []) (fuel : Nat) (seen queue : List κ)
    (enough : cost links nodes seen queue ≤ fuel) :
    visits links (fuel + 1) seen queue = visits links fuel seen queue := by
  induction fuel generalizing seen queue with
  | zero =>
      cases queue with
      | nil => rfl
      | cons node queue => simp [cost] at enough
  | succ fuel ih =>
      cases queue with
      | nil => rfl
      | cons node queue =>
          rw [visits, visits]
          by_cases old : node ∈ seen
          · rw [if_pos old, if_pos old]
            apply ih
            simp only [cost, List.length_cons] at enough ⊢
            omega
          · rw [if_neg old, if_neg old]
            congr 1
            apply ih
            simp only [cost, List.length_cons, List.length_append] at enough ⊢
            by_cases inner : node ∈ nodes
            · have fewer := sum_weight_cons links inner old
              omega
            · have fewer := sum_weight_cons_le links nodes seen node
              rw [leaves node inner, List.length_nil]
              omega

/-- A search with enough fuel answers as with any greater fuel. -/
theorem search_of_cost_le {links : κ → List κ} {nodes : List κ} (answer : κ → Option α)
    (leaves : ∀ node, node ∉ nodes → links node = []) {fuel : Nat} {seen queue : List κ}
    (enough : cost links nodes seen queue ≤ fuel) (more : Nat) :
    search links answer (fuel + more) seen queue = search links answer fuel seen queue := by
  induction more with
  | zero => rfl
  | succ more ih =>
      rw [← ih, search_eq, search_eq, Nat.add_succ,
        visits_of_cost_le leaves _ _ _ (enough.trans (Nat.le_add_right _ _))]

end Rigor.Library.Breadth
