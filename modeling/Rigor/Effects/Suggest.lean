import Rigor.Effects.Registry

/-!
# Suggestions

`levenshtein` is the edit distance up to its cap, and `suggest` the first nearest
known label.
-/

namespace Rigor.Effects

open Std Rigor.Library.EditDistance

/-! ## The table -/

/-- The values at the fronts of a text, from the empty one on. -/
def along (f : Text → Nat) (text : Text) : List Nat :=
  text.inits.map f

theorem along_cons (f : Text → Nat) (c : Char) (text : Text) :
    along f (c :: text) = f [] :: along (fun s => f (c :: s)) text := by
  rw [along, List.inits_cons, List.map_cons, List.map_map]
  rfl

theorem along_eq_cons (f : Text → Nat) (text : Text) :
    along f text = f [] :: (along f text).tail := by
  cases text with
  | nil => rfl
  | cons c text => rw [along_cons, List.tail_cons]

theorem mem_along_iff {f : Text → Nat} {text : Text} {n : Nat} :
    n ∈ along f text ↔ ∃ front, front <+: text ∧ f front = n := by
  simp [along]

theorem getD_along (f : Text → Nat) (text : Text) : (along f text).getD text.length 0 = f text := by
  induction text generalizing f with
  | nil => rfl
  | cons c text ih =>
      rw [along_cons, List.length_cons, List.getD_cons_succ]
      exact ih fun s => f (c :: s)

theorem along_length (text : Text) : along List.length text = List.range (text.length + 1) := by
  suffices shifted : ∀ n, along (fun s => s.length + n) text = List.range' n (text.length + 1) by
    rw [List.range_eq_range']
    exact shifted 0
  induction text with
  | nil =>
      intro n
      simp [along]
  | cons c text ih =>
      intro n
      have next : (fun s : Text => (c :: s).length + n) = fun s : Text => s.length + (n + 1) := by
        funext s
        rw [List.length_cons]
        omega
      rw [along_cons, next, ih (n + 1)]
      simp [List.range'_succ]

/-- The inner loop computes a row by the recurrence at the last items. -/
theorem columns_along {char : Char} {f g : Text → Nat} (recurrence : ∀ s other, g (s ++ [other]) =
      min (min (g s + 1) (f (s ++ [other]) + 1)) (f s + if char ≠ other then 1 else 0))
    (to_ : Text) : columns char to_ (along f to_) (g []) = (along g to_).tail := by
  induction to_ generalizing f g with
  | nil => rfl
  | cons other to_ ih =>
      have value := recurrence [] other
      have inner := ih (f := fun s => f (other :: s)) (g := fun s => g (other :: s))
        fun s next => recurrence (other :: s) next
      rw [along_cons, along_cons, List.tail_cons, along_eq_cons (fun s => f (other :: s)), columns]
      rw [List.nil_append] at value
      rw [along_eq_cons (fun s => f (other :: s))] at inner
      rw [along_eq_cons (fun s => g (other :: s)), ← inner]
      simp only [value]

/-- The row of the table behind some characters. -/
def tableRow (front to_ : Text) : List Nat :=
  along (distance front) to_

theorem columns_tableRow (front : Text) (char : Char) (to_ : Text) :
    (front.length + 1) :: columns char to_ (tableRow front to_) (front.length + 1) =
      tableRow (front ++ [char]) to_ := by
  have recurrence (s : Text) (other : Char) : distance (front ++ [char]) (s ++ [other]) =
      min (min (distance (front ++ [char]) s + 1) (distance front (s ++ [other]) + 1))
        (distance front s + if char ≠ other then 1 else 0) := by
    have costs : cost char other = if char ≠ other then 1 else 0 := by
      rw [cost, ite_not]
    rw [distance_concat_concat, costs, Nat.min_comm (distance front _ + 1)]
  have first : front.length + 1 = distance (front ++ [char]) [] := by simp
  rw [tableRow, tableRow, first, columns_along recurrence, ← along_eq_cons]

/-- The outer loop ends with the last row, or with a row beyond the cap: then the
distance is beyond it too. -/
theorem rows_tableRow (cap : Nat) (front rest to_ : Text) :
    (rows cap to_ front.length rest (tableRow front to_) = none ∧
        cap < distance (front ++ rest) to_) ∨
      rows cap to_ front.length rest (tableRow front to_) = some (tableRow (front ++ rest) to_) := by
  induction rest generalizing front with
  | nil =>
      rw [List.append_nil]
      exact Or.inr rfl
  | cons char rest ih =>
      have inner := ih (front ++ [char])
      rw [List.append_assoc, List.singleton_append, List.length_append, List.length_singleton]
        at inner
      rw [rows, columns_tableRow]
      obtain ⟨least, found⟩ : ∃ least, (tableRow (front ++ [char]) to_).min? = some least := by
        rw [tableRow, along_eq_cons, List.min?_cons']
        exact ⟨_, rfl⟩
      rw [found, Option.getD_some]
      by_cases beyond : least > cap
      · left
        rw [if_pos beyond]
        refine ⟨rfl, ?_⟩
        obtain ⟨column, isPrefix, smaller⟩ := exists_prefix_distance_le (front ++ [char]) rest to_
        rw [List.append_assoc, List.singleton_append] at smaller
        have mem : distance (front ++ [char]) column ∈ tableRow (front ++ [char]) to_ :=
          mem_along_iff.mpr ⟨column, isPrefix, rfl⟩
        have bound := (List.min?_eq_some_iff.mp found).2 _ mem
        omega
      · rw [if_neg beyond]
        exact inner

/-- `levenshtein` is the edit distance up to the cap, and one more beyond it. -/
theorem levenshtein_eq (from_ to_ : Text) (cap : Nat) : levenshtein from_ to_ cap =
    if distance from_ to_ ≤ cap then distance from_ to_ else cap + 1 := by
  have lengths := length_le_add_distance from_ to_
  unfold levenshtein
  by_cases gap : (from_.length - to_.length) + (to_.length - from_.length) > cap
  · rw [if_pos gap, if_neg (by omega)]
  · have start : List.range (to_.length + 1) = tableRow [] to_ := by
      rw [tableRow, ← along_length]
      congr 1
      funext s
      exact (distance_nil_left s).symm
    rw [if_neg gap, start]
    rcases rows_tableRow cap [] from_ to_ with ⟨none, beyond⟩ | last
    · rw [List.nil_append] at beyond
      rw [List.length_nil] at none
      rw [none, if_neg (Nat.not_le_of_lt beyond)]
    · rw [List.length_nil, List.nil_append] at last
      rw [last]
      simp only [tableRow, getD_along]
      split_ifs <;> omega

/-! ## The scan -/

/-- A scan keeps its start, or ends with the first candidate of the least distance below
the bound. -/
theorem foldl_consider (label : Text) (candidates : List Text) (start : Option Text) (bound : Nat) :
    (candidates.foldl (Registry.consider label) (start, bound) = (start, bound) ∧
        ∀ candidate ∈ candidates, bound ≤ distance label candidate) ∨
      ∃ front best back, candidates = front ++ best :: back ∧
        candidates.foldl (Registry.consider label) (start, bound) =
          (some best, distance label best) ∧ distance label best < bound ∧
        (∀ candidate ∈ front, distance label best < distance label candidate) ∧
        ∀ candidate ∈ back, distance label best ≤ distance label candidate := by
  induction candidates generalizing start bound with
  | nil => exact Or.inl ⟨rfl, by simp⟩
  | cons candidate candidates ih =>
      rw [List.foldl_cons]
      have considered : Registry.consider label (start, bound) candidate =
          if distance label candidate < bound then (some candidate, distance label candidate)
          else (start, bound) := by
        simp only [Registry.consider, levenshtein_eq]
        split_ifs <;> first | rfl | omega
      rw [considered]
      by_cases closer : distance label candidate < bound
      · rw [if_pos closer]
        right
        rcases ih (some candidate) (distance label candidate) with ⟨same, others⟩ |
          ⟨front, best, back, rfl, found, less, before, after⟩
        · exact ⟨[], candidate, candidates, rfl, same, closer, by simp, others⟩
        · refine ⟨candidate :: front, best, back, rfl, found, Nat.lt_trans less closer, ?_, after⟩
          exact List.forall_mem_cons.mpr ⟨less, before⟩
      · rw [if_neg closer]
        rcases ih start bound with ⟨same, others⟩ |
          ⟨front, best, back, rfl, found, less, before, after⟩
        · exact Or.inl ⟨same, List.forall_mem_cons.mpr ⟨Nat.le_of_not_lt closer, others⟩⟩
        · refine Or.inr ⟨candidate :: front, best, back, rfl, found, less, ?_, after⟩
          exact List.forall_mem_cons.mpr ⟨Nat.lt_of_lt_of_le less (Nat.le_of_not_lt closer), before⟩

/-- A known label at the least distance from `label`, the lexicographically first of
these, within the cap. -/
structure Registry.Nearest (registry : Registry) (label best : Text) : Prop where
  known : best ∈ registry.known
  close : distance label best ≤ suggestionDistanceCap
  first : ∀ candidate ∈ registry.known, distance label best < distance label candidate ∨
    distance label best = distance label candidate ∧ (Text.cmp best candidate).isLE

theorem Registry.Nearest.unique {registry : Registry} {label best other : Text}
    (nearest : registry.Nearest label best) (nearest' : registry.Nearest label other) :
    best = other := by
  have ahead := nearest.first other nearest'.known
  have behind := nearest'.first best nearest.known
  have le : (Text.cmp best other).isLE := by
    rcases ahead with less | ⟨-, le⟩
    · rcases behind with more | ⟨same, -⟩ <;> omega
    · exact le
  have ge : (Text.cmp other best).isLE := by
    rcases behind with less | ⟨-, ge⟩
    · rcases ahead with more | ⟨same, -⟩ <;> omega
    · exact ge
  cases order : Text.cmp best other with
  | lt =>
      rw [OrientedCmp.gt_of_lt order] at ge
      nomatch ge
  | eq => exact LawfulEqCmp.eq_of_compare order
  | gt =>
      rw [order] at le
      nomatch le

/-- What the scan over the known labels finds. -/
theorem Registry.scan_eq_some_iff (registry : Registry) (label best : Text) :
    (registry.known.toList.foldl (consider label) (none, suggestionDistanceCap + 1)).1 = some best ↔
      registry.Nearest label best := by
  have sorted : registry.known.toList.Pairwise fun a b => Text.cmp a b = .lt :=
    ExtTreeSet.ordered_toList
  have known {candidate : Text} : candidate ∈ registry.known ↔
      candidate ∈ registry.known.toList :=
    ExtTreeSet.mem_toList.symm
  rcases foldl_consider label registry.known.toList none (suggestionDistanceCap + 1) with
    ⟨same, far⟩ | ⟨front, nearest, back, split, found, close, before, after⟩
  · rw [same]
    constructor
    · intro some
      nomatch some
    · intro nearest
      have near := nearest.close
      have beyond := far best (known.mp nearest.known)
      omega
  · have isNearest : registry.Nearest label nearest := by
      rw [split] at sorted
      refine ⟨known.mpr (split ▸ List.mem_append_right _ List.mem_cons_self),
        Nat.le_of_lt_succ close, fun candidate mem => ?_⟩
      rw [known, split, List.mem_append, List.mem_cons] at mem
      rcases mem with inFront | rfl | inBack
      · exact Or.inl (before candidate inFront)
      · have self : Text.cmp candidate candidate = .eq := ReflCmp.compare_self
        exact Or.inr ⟨rfl, by rw [self]; rfl⟩
      · rcases Nat.lt_or_eq_of_le (after candidate inBack) with less | same
        · exact Or.inl less
        · have ahead := (List.pairwise_cons.mp (List.pairwise_append.mp sorted).2.1).1 candidate inBack
          exact Or.inr ⟨same, by rw [ahead]; rfl⟩
    rw [found, Option.some.injEq]
    constructor
    · rintro rfl
      exact isNearest
    · intro other
      exact isNearest.unique other

/-- The known labels of a registry: the declared ones and their ancestors. -/
theorem Registry.mem_known_new {version : Nat} {labels : List Text}
    {retired : ExtTreeMap Text Replacements Text.cmp} {descriptions : ExtTreeMap Text Text Text.cmp}
    {label : Text} : label ∈ (new version labels retired descriptions).known ↔
      label ∈ labels ∨ ∃ declared ∈ labels, label ∈ Label.ancestors declared := by
  have inserted (ancestors : List Text) (known : ExtTreeSet Text Text.cmp) :
      label ∈ ancestors.foldl (fun known ancestor => known.insert ancestor) known ↔
        label ∈ known ∨ label ∈ ancestors := by
    induction ancestors generalizing known with
    | nil => simp
    | cons ancestor ancestors ih =>
        rw [List.foldl_cons, ih, ExtTreeSet.mem_insert, List.mem_cons, LawfulEqCmp.compare_eq_iff_eq,
          eq_comm, or_comm (a := label = ancestor), or_assoc]
  have collected (rows : List Text) (known : ExtTreeSet Text Text.cmp) :
      label ∈ rows.foldl (fun known declared =>
          (Label.ancestors declared).foldl (fun known ancestor => known.insert ancestor) known) known ↔
        label ∈ known ∨ ∃ declared ∈ rows, label ∈ Label.ancestors declared := by
    induction rows generalizing known with
    | nil => simp
    | cons declared rows ih => rw [List.foldl_cons, ih, inserted, List.exists_mem_cons_iff, or_assoc]
  have declared {row : Text} : row ∈ (ExtTreeSet.ofList labels Text.cmp).toList ↔ row ∈ labels := by
    rw [ExtTreeSet.mem_toList, ExtTreeSet.mem_ofList, List.contains_iff_mem]
  rw [new, buildKnown, collected, ExtTreeSet.mem_ofList, List.contains_iff_mem]
  simp only [declared]

/-- `levenshtein` is the least number of edits up to the cap, at every cap of which `cap + 1`
is a `usize`, and `suggest` answers the nearest known label to a valid unknown one. -/
theorem suggest_eq_some_iff :
    (∀ from_ to_ cap, IsLeast {n | Edits n from_ to_} (distance from_ to_) ∧
      levenshtein from_ to_ cap =
        if distance from_ to_ ≤ cap then distance from_ to_ else cap + 1) ∧
    ∀ version labels retired descriptions label best,
      (Registry.new version labels retired descriptions).suggest label = some best ↔
        Label.valid label = true ∧
          label ∉ (Registry.new version labels retired descriptions).known ∧
          (Registry.new version labels retired descriptions).Nearest label best := by
  refine ⟨fun from_ to_ cap => ⟨isLeast_distance from_ to_, levenshtein_eq from_ to_ cap⟩,
    fun version labels retired descriptions label best => ?_⟩
  generalize Registry.new version labels retired descriptions = registry
  rw [Registry.suggest, Option.ite_none_left_eq_some, registry.scan_eq_some_iff]
  simp [and_assoc]

end Rigor.Effects
