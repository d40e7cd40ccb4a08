import Mathlib.Data.List.Basic

/-!
# Routes between places

A place is the list of the names on the way down to it, and a route goes up and down.
-/

namespace Rigor.Library.Routes

universe u

inductive Move (α : Type u) where
  | up
  | down (name : α)
  deriving DecidableEq

variable {α : Type u}

/-- One move; there is nothing above the top. -/
def Move.apply (place : List α) : Move α → List α
  | .up => place.dropLast
  | .down name => place ++ [name]

def walk (place : List α) (moves : List (Move α)) : List α :=
  moves.foldl Move.apply place

theorem walk_append (place : List α) (first second : List (Move α)) :
    walk place (first ++ second) = walk (walk place first) second :=
  List.foldl_append

@[simp]
theorem walk_down (place names : List α) : walk place (names.map .down) = place ++ names := by
  induction names generalizing place with
  | nil => exact (List.append_nil place).symm
  | cons name names ih =>
      calc walk place ((name :: names).map .down)
          = walk (place ++ [name]) (names.map .down) := rfl
        _ = place ++ [name] ++ names := ih _
        _ = place ++ name :: names := List.append_assoc _ _ _

theorem walk_up (place : List α) (n : Nat) :
    walk place (List.replicate n .up) = place.take (place.length - n) := by
  induction n generalizing place with
  | zero => exact List.take_length.symm
  | succ n ih =>
      calc walk place (List.replicate (n + 1) .up)
          = walk place.dropLast (List.replicate n .up) := rfl
        _ = place.dropLast.take (place.dropLast.length - n) := ih _
        _ = place.take (place.length - (n + 1)) := by
            rw [List.dropLast_eq_take, List.take_take, List.length_take]
            congr 1
            omega

/-- Names on a walk are from its start or from a move down. -/
theorem mem_walk {place : List α} {moves : List (Move α)} {name : α}
    (mem : name ∈ walk place moves) : name ∈ place ∨ .down name ∈ moves := by
  induction moves generalizing place with
  | nil => exact .inl mem
  | cons move moves ih =>
      rcases ih mem with here | later
      · cases move with
        | up => exact .inl (List.dropLast_subset _ here)
        | down other =>
            rcases List.mem_append.mp here with before | now
            · exact .inl before
            · rw [List.mem_singleton.mp now]
              exact .inr List.mem_cons_self
      · exact .inr (List.mem_cons_of_mem _ later)

section Relative

variable [DecidableEq α]

/-- The length of the way that two places share. -/
def common (a b : List α) : Nat :=
  ((a.zip b).takeWhile fun pair => pair.1 = pair.2).length

@[simp]
theorem common_nil (a : List α) : common a [] = 0 := by
  rw [common, List.zip_nil_right]
  rfl

theorem common_cons (x : α) (a : List α) (y : α) (b : List α) :
    common (x :: a) (y :: b) = if x = y then common a b + 1 else 0 := by
  rw [common, List.zip_cons_cons, List.takeWhile_cons]
  by_cases same : x = y
  · rw [if_pos same, if_pos (decide_eq_true same), List.length_cons, common]
  · rw [if_neg same, if_neg (by simpa using same), List.length_nil]

theorem take_common (a b : List α) : a.take (common a b) = b.take (common a b) := by
  induction a generalizing b with
  | nil =>
      have zero : common ([] : List α) b = 0 := rfl
      rw [zero, List.take_zero, List.take_zero]
  | cons x a ih =>
      cases b with
      | nil => rw [common_nil, List.take_zero, List.take_zero]
      | cons y b =>
          rw [common_cons]
          by_cases same : x = y
          · rw [if_pos same, List.take_succ_cons, List.take_succ_cons, ih, same]
          · rw [if_neg same, List.take_zero, List.take_zero]

theorem common_le (a b : List α) : common a b ≤ b.length := by
  calc common a b ≤ (a.zip b).length := (List.takeWhile_prefix _).length_le
    _ ≤ b.length := by
        rw [List.length_zip]
        exact Nat.min_le_right _ _

theorem common_append (b rest : List α) : common (b ++ rest) b = b.length := by
  induction b with
  | nil => exact common_nil _
  | cons y b ih => rw [List.cons_append, common_cons, if_pos rfl, ih, List.length_cons]

/-- The way to `a` from `b`: up to where they part, then down. -/
def route (a b : List α) : List (Move α) :=
  List.replicate (b.length - common a b) .up ++ (a.drop (common a b)).map .down

theorem walk_route (a b : List α) : walk b (route a b) = a := by
  have back : b.length - (b.length - common a b) = common a b :=
    Nat.sub_sub_self (common_le a b)
  rw [route, walk_append, walk_up, walk_down, back, ← take_common, List.take_append_drop]

/-- Only a place itself needs no move. -/
theorem route_eq_nil_iff {a b : List α} : route a b = [] ↔ a = b := by
  constructor
  · intro empty
    have walked := walk_route a b
    rw [empty] at walked
    exact walked.symm
  · rintro rfl
    have whole : common a a = a.length := by
      have appended := common_append a []
      rwa [List.append_nil] at appended
    rw [route, whole, Nat.sub_self, List.drop_length]
    rfl

/-- Below `b` the way leads down only. -/
theorem route_append (b rest : List α) : route (b ++ rest) b = rest.map .down := by
  rw [route, common_append, Nat.sub_self, List.drop_left]
  rfl

end Relative

end Rigor.Library.Routes
