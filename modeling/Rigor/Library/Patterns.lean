import Rigor.Library.MaximalMunch

/-!
# Backtracking patterns

A pattern is a list of items, matched from left to right.  A repetition takes as much
as it can and gives back one item at a time; a search takes the leftmost match.
-/

namespace Rigor.Library.Patterns

open Rigor.Library.MaximalMunch

universe u v

variable {α : Type u}

/-- An item of a pattern. -/
inductive Item (α : Type u) where
  | literal (run : List α)
  | one (p : α → Bool)
  | star (p : α → Bool)

/-- The ways to split off a run of the class, the longest first. -/
def greedy (p : α → Bool) : List α → List (List α × List α)
  | [] => [([], [])]
  | a :: text =>
      if p a then ((greedy p text).map fun (run, rest) => (a :: run, rest)) ++ [([], a :: text)]
      else [([], a :: text)]

section Greedy

variable {text : List α}

/-- A repetition tries the longer runs first. -/
theorem findSome?_greedy_cons {β : Type v} {p : α → Bool} {a : α} (inside : p a = true)
    (rest : List α) (f : List α × List α → Option β) :
    (greedy p (a :: rest)).findSome? f =
      ((greedy p rest).findSome? fun (run, back) => f (a :: run, back)).or (f ([], a :: rest)) := by
  rw [greedy, if_pos inside, List.findSome?_append, List.findSome?_map, List.findSome?_singleton]
  rfl

theorem findSome?_greedy_of_stops {β : Type v} {p : α → Bool} (stops : Stops p text)
    (f : List α × List α → Option β) : (greedy p text).findSome? f = f ([], text) := by
  have alone : greedy p text = [([], text)] := by
    cases text with
    | nil => rfl
    | cons a rest =>
        rw [stops_cons] at stops
        rw [greedy, if_neg (by simp [stops])]
  rw [alone, List.findSome?_singleton]

end Greedy

section Match

variable [DecidableEq α]

/-- The ways to match an item, in the order in which they are tried. -/
def Item.splits : Item α → List α → List (List α × List α)
  | .literal run, text => if run <+: text then [(run, text.drop run.length)] else []
  | .one p, text =>
      match text with
      | a :: rest => if p a then [([a], rest)] else []
      | [] => []
  | .star p, text => greedy p text

/-- The pieces of the first match at the start of the text. -/
def firstMatch : List (Item α) → List α → Option (List (List α))
  | [], _ => some []
  | item :: items, text =>
      (item.splits text).findSome? fun (run, rest) => (firstMatch items rest).map (run :: ·)

/-- The pieces of the leftmost match in the text. -/
def search (items : List (Item α)) : List α → Option (List (List α))
  | [] => firstMatch items []
  | a :: text => (firstMatch items (a :: text)).or (search items text)

variable {items : List (Item α)} {text : List α} {pieces : List (List α)}

/-! ## Matching -/

theorem firstMatch_literal (run rest : List α) :
    firstMatch (.literal run :: items) (run ++ rest) = (firstMatch items rest).map (run :: ·) := by
  rw [firstMatch, Item.splits, if_pos (List.prefix_append run rest), List.drop_left,
    List.findSome?_singleton]

theorem firstMatch_literal_of_apart {run : List α} (apart : ¬run <+: text) :
    firstMatch (.literal run :: items) text = none := by
  rw [firstMatch, Item.splits, if_neg apart, List.findSome?_nil]

theorem firstMatch_one_cons {p : α → Bool} {a : α} (inside : p a = true) (rest : List α) :
    firstMatch (.one p :: items) (a :: rest) = (firstMatch items rest).map ([a] :: ·) := by
  rw [firstMatch, Item.splits, if_pos inside, List.findSome?_singleton]

theorem firstMatch_one_of_stops {p : α → Bool} (stops : Stops p text) :
    firstMatch (.one p :: items) text = none := by
  cases text with
  | nil => rfl
  | cons a rest =>
      rw [stops_cons] at stops
      rw [firstMatch, Item.splits, if_neg (by simp [stops]), List.findSome?_nil]

/-- When the rest of the pattern does not match in front of the class, the repetition
takes all of it. -/
theorem firstMatch_star {p : α → Bool}
    (apart : ∀ a rest, p a = true → firstMatch items (a :: rest) = none) :
    firstMatch (.star p :: items) text =
      (firstMatch items (text.dropWhile p)).map (text.takeWhile p :: ·) := by
  suffices taken : ∀ f : List α × List α → Option (List (List α)),
      (∀ run a rest, p a = true → f (run, a :: rest) = none) →
      (greedy p text).findSome? f = f (text.takeWhile p, text.dropWhile p) by
    rw [firstMatch, Item.splits, taken]
    intro run a rest inside
    exact congrArg (Option.map _) (apart a rest inside)
  induction text with
  | nil =>
      intro f _
      rw [findSome?_greedy_of_stops stops_nil]
      rfl
  | cons a rest ih =>
      intro f none
      by_cases inside : p a = true
      · rw [findSome?_greedy_cons inside, none [] a rest inside, Option.or_none,
          List.takeWhile_cons_of_pos inside, List.dropWhile_cons_of_pos inside]
        exact ih (fun (run, back) => f (a :: run, back)) fun run b back => none (a :: run) b back
      · rw [findSome?_greedy_of_stops (stops_cons.mpr (Bool.not_eq_true _ ▸ inside)),
          List.takeWhile_cons_of_neg inside, List.dropWhile_cons_of_neg inside]

/-- A repetition at the end takes the longest run. -/
theorem firstMatch_star_nil (p : α → Bool) :
    firstMatch [.star p] text = some [text.takeWhile p] := by
  suffices taken : ∀ f : List α → List (List α),
      (greedy p text).findSome? (fun (run, _) => some (f run)) = some (f (text.takeWhile p)) by
    exact taken fun run => [run]
  induction text with
  | nil =>
      intro f
      rfl
  | cons a rest ih =>
      intro f
      by_cases inside : p a = true
      · rw [findSome?_greedy_cons inside, List.takeWhile_cons_of_pos inside]
        exact congrArg (Option.or · _) (ih fun run => f (a :: run))
      · rw [findSome?_greedy_of_stops (stops_cons.mpr (Bool.not_eq_true _ ▸ inside)),
          List.takeWhile_cons_of_neg inside]

/-! ## Searching -/

theorem search_eq_none_iff : search items text = none ↔
    ∀ before after, text = before ++ after → firstMatch items after = none := by
  induction text with
  | nil =>
      constructor
      · intro none before after split
        obtain ⟨rfl, rfl⟩ := List.append_eq_nil_iff.mp split.symm
        exact none
      · intro none
        exact none [] [] rfl
  | cons a text ih =>
      rw [search, Option.or_eq_none_iff, ih]
      constructor
      · rintro ⟨here, later⟩ before after split
        cases before with
        | nil =>
            rw [List.nil_append] at split
            exact split ▸ here
        | cons b before => exact later before after (List.cons.inj split).2
      · intro none
        refine ⟨none [] (a :: text) rfl, fun before after split => ?_⟩
        exact none (a :: before) after (congrArg (a :: ·) split)

/-- What a search finds is a match at some place. -/
theorem exists_of_search (found : search items text = some pieces) :
    ∃ before after, text = before ++ after ∧ firstMatch items after = some pieces := by
  induction text with
  | nil => exact ⟨[], [], rfl, found⟩
  | cons a text ih =>
      rw [search] at found
      cases here : firstMatch items (a :: text) with
      | some other =>
          rw [here, Option.some_or, Option.some.injEq] at found
          exact ⟨[], a :: text, rfl, here.trans (congrArg some found)⟩
      | none =>
          rw [here, Option.none_or] at found
          obtain ⟨before, after, split, isMatch⟩ := ih found
          exact ⟨a :: before, after, congrArg (a :: ·) split, isMatch⟩

/-- A search passes the places where the pattern does not match. -/
theorem search_append {before after : List α}
    (none : ∀ a rest, a ∈ before → firstMatch items (a :: rest) = none) :
    search items (before ++ after) = search items after := by
  induction before with
  | nil => rfl
  | cons a before ih =>
      rw [List.cons_append, search, none a _ List.mem_cons_self, Option.none_or]
      exact ih fun b rest mem => none b rest (List.mem_cons_of_mem a mem)

/-- A match at the start of the text is the leftmost one. -/
theorem search_of_firstMatch (found : firstMatch items text = some pieces) :
    search items text = some pieces := by
  cases text with
  | nil => exact found
  | cons a text => rw [search, found, Option.some_or]

end Match

end Rigor.Library.Patterns
